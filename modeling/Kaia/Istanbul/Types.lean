import Mathlib

/-! # Words of the Istanbul protocol

Addresses, digests, views and the messages validators exchange. Views and
proposals come out of the wire decoder, so their numbers are natural numbers
of any size; the conversions to machine words are explicit.
-/

namespace Kaia

abbrev Address := BitVec 160

instance : LawfulBEq Address := inferInstance

abbrev Hash := BitVec 256

abbrev Bytes := List UInt8

abbrev Nonce := Fin (2 ^ 64)

/-- A word, so that the nonce after the last one is zero. -/
def Nonce.next (n : Nonce) : Nonce := n + 1

def maxAlloc : ℕ := 2 ^ 48

def uint64 (n : ℕ) : ℕ := n % 2 ^ 64

def int64 (z : ℤ) : ℤ := z.bmod (2 ^ 64)

def sub64 (a b : ℕ) : ℕ := uint64 (uint64 a + (2 ^ 64 - uint64 b))

def Hash.bytes (h : Hash) : Bytes :=
  (List.range 32).map fun i => UInt8.ofNat ((h.toNat >>> (8 * (31 - i))) % 256)

def emptyHash (h : Hash) : Bool := h == 0

structure View where
  round : ℕ
  sequence : ℕ
  deriving DecidableEq

def View.cmp (v y : View) : Ordering :=
  (compare v.sequence y.sequence).then (compare v.round y.round)

theorem View.cmp_eq_lt {v y : View} :
    v.cmp y = .lt ↔ v.sequence < y.sequence ∨ v.sequence = y.sequence ∧ v.round < y.round := by
  simp [View.cmp, Ordering.then_eq_lt, Nat.compare_eq_lt]

theorem View.cmp_eq_eq {v y : View} : v.cmp y = .eq ↔ v = y := by
  cases v; cases y
  simp [View.cmp, Ordering.then_eq_eq, and_comm]

/-- The Istanbul part of the extra data of a header. -/
structure IstanbulExtra where
  validators : List Address
  proposerSeal : Bytes
  committedSeal : List Bytes
  deriving DecidableEq

/-- What the engine reads of a header; the extra data is missing when it does not decode. -/
structure Header where
  number : ℕ
  parentHash : Hash
  hash : Hash
  sigHash : Hash
  extra : Option IstanbulExtra
  mixHash : Option Bytes
  vote : Bytes
  deriving DecidableEq

/-- A proposed block: its header and the round byte of the extra data, which the
digest skips. -/
structure Proposal where
  header : Header
  round : ℕ
  deriving DecidableEq

namespace Proposal

variable (p : Proposal)

def number : ℕ := p.header.number

def hash : Hash := p.header.hash

def parentHash : Hash := p.header.parentHash

/-- `SetRoundToHeader` followed by `WithSeal`. -/
def withRound (r : ℕ) : Proposal := { p with round := r % 256 }

end Proposal

structure Preprepare where
  view : View
  proposal : Proposal
  deriving DecidableEq

structure Subject where
  view : View
  digest : Hash
  prevHash : Hash
  deriving DecidableEq

inductive MsgCode
  | preprepare | prepare | commit | roundChange | other
  deriving DecidableEq

/-- The decoded `Msg` field: two items for a proposal, three for a subject. -/
inductive Body
  | preprepare (p : Preprepare)
  | subject (s : Subject)
  | malformed
  deriving DecidableEq

structure Message where
  hash : Hash
  code : MsgCode
  body : Body
  address : Address
  committedSeal : Bytes
  deriving DecidableEq

def Message.decodePreprepare (m : Message) : Option Preprepare :=
  match m.body with
  | .preprepare p => some p
  | _ => none

def Message.decodeSubject (m : Message) : Option Subject :=
  match m.body with
  | .subject s => some s
  | _ => none

/-- A payload from the wire together with the address its signature recovers to. -/
structure Payload where
  msg : Message
  signer : Option Address
  deriving DecidableEq

def Payload.signed (sender : Address) (hash : Hash) (code : MsgCode) (body : Body)
    (committedSeal : Bytes) : Payload :=
  ⟨⟨hash, code, body, sender, committedSeal⟩, some sender⟩

/-- The errors of public key recovery. -/
inductive SignatureErr
  | invalidMsgLen | invalidSignatureLen | invalidRecoveryID | invalidPubkey | recoverFailed
  deriving DecidableEq

/-- `GetSignatureAddress`: the signer of data, or why there is none. -/
abbrev Recover := Bytes → Bytes → Except SignatureErr Address

inductive Err
  | inconsistentSubject | notFromProposer | notFromCommittee | ignored
  | futureMessage | oldMessage | invalidMessage | invalidSigner
  | unauthorizedAddress | invalidSignature | futureBlock | verification
  deriving DecidableEq

/-- The ways in which the modelled Go code panics, or ends the process by `logger.Crit`. -/
inductive GoPanic
  | sliceBounds | indexOutOfRange | makeSlice | divideByZero | nilPointer | crit
  | typeAssertion | uncomparable
  deriving DecidableEq

def prepareCommittedSeal (h : Hash) : Bytes := h.bytes ++ [2]

end Kaia
