import Kaia.Account.Format

/-! # The data of transactions

Every type of transaction is a structure, and its format is the list of the formats of its
fields. A type is given here by its fields in the order of the source.
-/

namespace Kaia

open Foundation Rlp
open Codec hiding none

inductive TxType
  | legacyTransaction
  | valueTransfer
  | feeDelegatedValueTransfer
  | feeDelegatedValueTransferWithRatio
  | valueTransferMemo
  | feeDelegatedValueTransferMemo
  | feeDelegatedValueTransferMemoWithRatio
  | accountUpdate
  | feeDelegatedAccountUpdate
  | feeDelegatedAccountUpdateWithRatio
  | smartContractDeploy
  | feeDelegatedSmartContractDeploy
  | feeDelegatedSmartContractDeployWithRatio
  | smartContractExecution
  | feeDelegatedSmartContractExecution
  | feeDelegatedSmartContractExecutionWithRatio
  | cancel
  | feeDelegatedCancel
  | feeDelegatedCancelWithRatio
  | chainDataAnchoring
  | feeDelegatedChainDataAnchoring
  | feeDelegatedChainDataAnchoringWithRatio
  | ethereumAccessList
  | ethereumDynamicFee
  deriving DecidableEq

namespace TxType

/-- The number of a base type and whether the fee is delegated, with or without a ratio. -/
def number (base sub : ℕ) : ℕ := base <<< 3 + sub

def code : TxType → ℕ
  | .legacyTransaction => number 0 0
  | .valueTransfer => number 1 0
  | .feeDelegatedValueTransfer => number 1 1
  | .feeDelegatedValueTransferWithRatio => number 1 2
  | .valueTransferMemo => number 2 0
  | .feeDelegatedValueTransferMemo => number 2 1
  | .feeDelegatedValueTransferMemoWithRatio => number 2 2
  | .accountUpdate => number 4 0
  | .feeDelegatedAccountUpdate => number 4 1
  | .feeDelegatedAccountUpdateWithRatio => number 4 2
  | .smartContractDeploy => number 5 0
  | .feeDelegatedSmartContractDeploy => number 5 1
  | .feeDelegatedSmartContractDeployWithRatio => number 5 2
  | .smartContractExecution => number 6 0
  | .feeDelegatedSmartContractExecution => number 6 1
  | .feeDelegatedSmartContractExecutionWithRatio => number 6 2
  | .cancel => number 7 0
  | .feeDelegatedCancel => number 7 1
  | .feeDelegatedCancelWithRatio => number 7 2
  | .chainDataAnchoring => number 9 0
  | .feeDelegatedChainDataAnchoring => number 9 1
  | .feeDelegatedChainDataAnchoringWithRatio => number 9 2
  | .ethereumAccessList => 0x7801
  | .ethereumDynamicFee => 0x7802

def all : List TxType :=
  [.legacyTransaction, .valueTransfer, .feeDelegatedValueTransfer,
    .feeDelegatedValueTransferWithRatio, .valueTransferMemo, .feeDelegatedValueTransferMemo,
    .feeDelegatedValueTransferMemoWithRatio, .accountUpdate, .feeDelegatedAccountUpdate,
    .feeDelegatedAccountUpdateWithRatio, .smartContractDeploy, .feeDelegatedSmartContractDeploy,
    .feeDelegatedSmartContractDeployWithRatio, .smartContractExecution,
    .feeDelegatedSmartContractExecution, .feeDelegatedSmartContractExecutionWithRatio, .cancel,
    .feeDelegatedCancel, .feeDelegatedCancelWithRatio, .chainDataAnchoring,
    .feeDelegatedChainDataAnchoring, .feeDelegatedChainDataAnchoringWithRatio,
    .ethereumAccessList, .ethereumDynamicFee]

def ofCode (n : ℕ) : Option TxType := all.find? (·.code == n)

def ethereumTxTypeEnvelope : ℕ := 0x78

def isEthTypedTransaction (t : TxType) : Bool := t.code &&& 0xff00 == ethereumTxTypeEnvelope <<< 8

end TxType

/-! ## Fields -/

structure TxSignature where
  v : ℕ
  r : ℕ
  s : ℕ
  deriving DecidableEq

/-- An address and keys of its storage. The keys are a slice, which may be nil. -/
structure AccessTuple where
  address : Address
  storageKeys : Option (List Hash)
  deriving DecidableEq

/-- The fields of transactions; the source calls the sender `From`. -/
inductive TxField
  | chainID
  | accountNonce
  | price
  | gasTipCap
  | gasFeeCap
  | gasLimit
  | recipient
  | recipientOrNil
  | amount
  | sender
  | payload
  | humanReadable
  | codeFormat
  | feeRatio
  | key
  | accessList
  | v
  | r
  | s
  | txSignatures
  | feePayer
  | feePayerSignatures
  deriving DecidableEq

namespace TxField

def Val : TxField → Type
  | .chainID | .price | .gasTipCap | .gasFeeCap | .amount => ℤ
  | .accountNonce | .gasLimit | .codeFormat | .feeRatio | .v | .r | .s => ℕ
  | .recipient | .sender | .feePayer => Address
  | .recipientOrNil => Option Address
  | .payload => Bytes
  | .humanReadable => Bool
  | .key => AccountKey
  | .accessList => List AccessTuple
  | .txSignatures | .feePayerSignatures => List TxSignature

end TxField

namespace TxType

open TxField

def transferFields : List TxField := [accountNonce, price, gasLimit, recipient, amount, sender]

def deployFields : List TxField :=
  [accountNonce, price, gasLimit, recipientOrNil, amount, sender, payload, humanReadable]

def senderFields : List TxField := [accountNonce, price, gasLimit, sender]

def feePayerFields : List TxField := [txSignatures, feePayer, feePayerSignatures]

/-- The fields that are written, in their order. -/
def fields : TxType → List TxField
  | .legacyTransaction =>
    [accountNonce, price, gasLimit, recipientOrNil, amount, payload, v, r, s]
  | .valueTransfer => transferFields ++ [txSignatures]
  | .feeDelegatedValueTransfer => transferFields ++ feePayerFields
  | .feeDelegatedValueTransferWithRatio => transferFields ++ feeRatio :: feePayerFields
  | .valueTransferMemo => transferFields ++ [payload, txSignatures]
  | .feeDelegatedValueTransferMemo => transferFields ++ payload :: feePayerFields
  | .feeDelegatedValueTransferMemoWithRatio =>
    transferFields ++ payload :: feeRatio :: feePayerFields
  | .accountUpdate => senderFields ++ [key, txSignatures]
  | .feeDelegatedAccountUpdate => senderFields ++ key :: feePayerFields
  | .feeDelegatedAccountUpdateWithRatio => senderFields ++ key :: feeRatio :: feePayerFields
  | .smartContractDeploy => deployFields ++ [codeFormat, txSignatures]
  | .feeDelegatedSmartContractDeploy => deployFields ++ codeFormat :: feePayerFields
  | .feeDelegatedSmartContractDeployWithRatio =>
    deployFields ++ feeRatio :: codeFormat :: feePayerFields
  | .smartContractExecution => transferFields ++ [payload, txSignatures]
  | .feeDelegatedSmartContractExecution => transferFields ++ payload :: feePayerFields
  | .feeDelegatedSmartContractExecutionWithRatio =>
    transferFields ++ payload :: feeRatio :: feePayerFields
  | .cancel => senderFields ++ [txSignatures]
  | .feeDelegatedCancel => senderFields ++ feePayerFields
  | .feeDelegatedCancelWithRatio => senderFields ++ feeRatio :: feePayerFields
  | .chainDataAnchoring => senderFields ++ [payload, txSignatures]
  | .feeDelegatedChainDataAnchoring => senderFields ++ payload :: feePayerFields
  | .feeDelegatedChainDataAnchoringWithRatio =>
    senderFields ++ payload :: feeRatio :: feePayerFields
  | .ethereumAccessList =>
    [chainID, accountNonce, price, gasLimit, recipientOrNil, amount, payload, accessList, v, r, s]
  | .ethereumDynamicFee =>
    [chainID, accountNonce, gasTipCap, gasFeeCap, gasLimit, recipientOrNil, amount, payload,
      accessList, v, r, s]

end TxType

/-! ## Formats -/

/-- A pointer to an address, where nil is the empty string. -/
def addressOrNilFormat : Codec (Option Address) :=
  Codec.bytes.refine
    (fun b => if b = [] then some none
      else if b.length = 20 then some (some (BitVec.ofNat 160 (ofBytes b))) else none)
    (fun a => some (a.elim [] fun a => fixedBytes 20 a.toNat)) fun b a => by
      by_cases hb : b = []
      · subst hb
        cases a with
        | none => simp
        | some a =>
          have hlen := length_fixedBytes 20 a.toNat
          simp only [if_true, Option.some.injEq, Option.elim_some]
          constructor
          · rintro ⟨⟩
          · intro hnil
            rw [hnil] at hlen
            cases hlen
      · rw [if_neg hb]
        cases a with
        | none =>
          simp only [Option.elim_none, Option.some.injEq, Ne.symm hb, iff_false]
          split <;> simp
        | some a =>
          rw [Option.elim_some, ← Codec.ofNat_ofBytes_eq_some (w := 160) (n := 20) rfl]
          split <;> simp

def storageKeysFormat : Codec (Option (List Hash)) :=
  (Codec.listOf hashFormat hashFormat_ne_nil).refineOn (· ≠ none) (fun l => some (some l))
    (fun o => some (o.getD [])) (by rintro l o ⟨⟩; simp) (by
      rintro l o ho ⟨⟩
      obtain ⟨l, rfl⟩ := Option.ne_none_iff_exists'.mp ho
      rfl)

def accessTupleFormat : Codec AccessTuple :=
  (addressFormat.pair storageKeysFormat).wrap.refine (fun x => some ⟨x.1, x.2⟩)
    (fun t => some (t.address, t.storageKeys)) fun x t => by
      obtain ⟨_, _⟩ := x
      obtain ⟨_, _⟩ := t
      simp [eq_comm]

def txSignatureFormat : Codec TxSignature :=
  (Codec.bigInt.pair (Codec.bigInt.pair Codec.bigInt)).wrap.refine (fun x => some ⟨x.1, x.2.1, x.2.2⟩)
    (fun t => some (t.v, t.r, t.s)) fun x t => by
      obtain ⟨_, _, _⟩ := x
      obtain ⟨_, _, _⟩ := t
      simp [eq_comm]

theorem accessTuple_ne_nil (t : AccessTuple) : accessTupleFormat.encode t ≠ some [] := by
  unfold accessTupleFormat refine
  exact refineOn_ne_nil wrap_ne_nil t

theorem txSignature_ne_nil (t : TxSignature) : txSignatureFormat.encode t ≠ some [] := by
  unfold txSignatureFormat refine
  exact refineOn_ne_nil wrap_ne_nil t

/-- A key is written as a string that holds its encoding; if it has none, the string is
empty. -/
def keyFormat : Codec AccountKey :=
  Codec.bytes.refineOn (fun k => k.Encodable ∧ k.encode ≠ none) AccountKey.format.decodeBytes
    (fun k => some (k.encode.getD []))
    (fun b k h => by
      obtain ⟨hk, he⟩ := Codec.encode_of_decodeBytes h
      have he : k.encode = some b := he
      exact ⟨⟨hk, by simp [he]⟩, by rw [he, Option.getD_some]⟩)
    fun b k hk h => by
      obtain ⟨e, he⟩ := Option.ne_none_iff_exists'.mp hk.2
      rw [he, Option.getD_some] at h
      cases h
      exact Codec.decodeBytes_encode hk.1 he

namespace TxField

def format : (f : TxField) → Codec f.Val
  | .chainID | .price | .gasTipCap | .gasFeeCap | .amount => Codec.int
  | .v | .r | .s => Codec.bigInt
  | .accountNonce | .gasLimit => Codec.uint 8
  | .codeFormat | .feeRatio => Codec.uint 1
  | .recipient | .sender | .feePayer => addressFormat
  | .recipientOrNil => addressOrNilFormat
  | .payload => Codec.bytes
  | .humanReadable => Codec.bool
  | .key => keyFormat
  | .accessList => Codec.listOf accessTupleFormat accessTuple_ne_nil
  | .txSignatures | .feePayerSignatures => Codec.listOf txSignatureFormat txSignature_ne_nil

/-- A key that is written, and read again as it was. -/
def KeyReadable (k : AccountKey) : Prop := k.Encodable ∧ k.encode ≠ none

/-- A list without nil slices in it. -/
def NoNilKeys (l : List AccessTuple) : Prop := ∀ t ∈ l, t.storageKeys ≠ none

def Readable : (f : TxField) → f.Val → Prop
  | .key => KeyReadable
  | .accessList => NoNilKeys
  | _ => fun _ => True

theorem dom_accessTuple {t : AccessTuple} : accessTupleFormat.Dom t ↔ t.storageKeys ≠ none := by
  constructor
  · intro h
    exact (h.2 _ rfl).2.1
  · intro h
    refine ⟨trivial, fun x hx => ?_⟩
    cases hx
    exact ⟨total_array 160 20 rfl _, h, fun _ _ _ _ => total_array 256 32 rfl _⟩

theorem total_addressOrNil : addressOrNilFormat.Total := Codec.total_refine Codec.total_bytes _

theorem total_txSignature : txSignatureFormat.Total := by
  refine total_refine (fun x => ?_) _
  exact ⟨total_bigInt _, total_bigInt _, total_bigInt _⟩

theorem dom_format (f : TxField) (x : f.Val) : f.format.Dom x ↔ f.Readable x := by
  have htrue {p : Prop} (hp : p) : p ↔ True := ⟨fun _ => trivial, fun _ => hp⟩
  cases f with
  | key => exact ⟨fun h => h.1, fun h => ⟨h, fun _ _ => total_bytes _⟩⟩
  | accessList =>
    exact ⟨fun h t ht => dom_accessTuple.mp (h t ht), fun h t ht => dom_accessTuple.mpr (h t ht)⟩
  | chainID | price | gasTipCap | gasFeeCap | amount => exact htrue (total_int x)
  | accountNonce | gasLimit => exact htrue (total_uint 8 x)
  | codeFormat | feeRatio => exact htrue (total_uint 1 x)
  | recipient | sender | feePayer => exact htrue (total_array 160 20 rfl x)
  | recipientOrNil => exact htrue (total_addressOrNil x)
  | payload => exact htrue (total_bytes x)
  | humanReadable => exact htrue (total_bool x)
  | v | r | s => exact htrue (total_bigInt x)
  | txSignatures | feePayerSignatures => exact htrue fun t _ => total_txSignature t

def Vals : List TxField → Type
  | [] => Unit
  | f :: fs => f.Val × Vals fs

def valsFormat : (fs : List TxField) → Codec (Vals fs)
  | [] => Codec.none
  | f :: fs => f.format.pair (valsFormat fs)

def ReadableVals : (fs : List TxField) → Vals fs → Prop
  | [], _ => True
  | f :: fs, x => f.Readable x.1 ∧ ReadableVals fs x.2

theorem dom_valsFormat (fs : List TxField) (x : Vals fs) :
    (valsFormat fs).Dom x ↔ ReadableVals fs x := by
  induction fs with
  | nil => exact Iff.rfl
  | cons f fs ih =>
    obtain ⟨y, ys⟩ := x
    exact and_congr (dom_format f y) (ih ys)

def get? (g : TxField) : (fs : List TxField) → Vals fs → Option g.Val
  | [], _ => none
  | f :: fs, x => if h : f = g then some (h ▸ x.1) else get? g fs x.2

end TxField

/-- A transaction: its type and the values of the fields of that type. -/
structure Transaction where
  type : TxType
  data : TxField.Vals type.fields

end Kaia
