import Mathlib
import Kaia.Foundation.Folds
import Kaia.Istanbul.Types
import Kaia.Params.Rules

/-! # Accounts and their keys

An account has a nonce, a balance and the data of its type. Only smart contract accounts carry a
program. A storage root stands for the contents of its trie, and a code hash for the code.
-/

namespace Kaia

abbrev Storage := Hash → Hash

def emptyStorage : Storage := fun _ => 0

namespace AccountKey

/-- A public key on the curve `y² = x³ + 7`. -/
structure PublicKey where
  x : ℕ
  y : ℕ
  deriving DecidableEq

def curveP : ℕ := 2 ^ 256 - 2 ^ 32 - 977

def PublicKey.isOnCurve (p : PublicKey) : Bool :=
  p.y * p.y % curveP == (p.x * p.x * p.x + 7) % curveP

def PublicKey.compress (p : PublicKey) : ℕ × ℕ := (p.y % 2, p.x)

structure WeightedPublicKey where
  weight : ℕ
  key : PublicKey
  deriving DecidableEq

end AccountKey

open AccountKey

/-- The key an account is signed for with. -/
inductive AccountKey
  | nil
  | legacy
  | publicKey (key : PublicKey)
  | fail
  | weightedMultiSig (threshold : ℕ) (keys : List WeightedPublicKey)
  | roleBased (keys : List AccountKey)

/-- Why a key cannot be installed in an account or replace the key of one. -/
inductive AccountKeyError
  | accountKeyNilUninitializable
  | accountKeyFailNotUpdatable
  | differentAccountKeyType
  | accountKeyNotModifiable
  | notOnCurve
  | zeroLength
  | lengthTooLong
  | maxKeysExceed
  | zeroKeyWeight
  | unserializableKey
  | duplicatedKey
  | weightedSumOverflow
  | unsatisfiableThreshold
  | nestedCompositeType
  deriving DecidableEq

namespace AccountKey

inductive KeyType
  | nil
  | legacy
  | publicKey
  | fail
  | weightedMultiSig
  | roleBased
  deriving DecidableEq

def type : AccountKey → KeyType
  | .nil => .nil
  | .legacy => .legacy
  | .publicKey _ => .publicKey
  | .fail => .fail
  | .weightedMultiSig _ _ => .weightedMultiSig
  | .roleBased _ => .roleBased

def isCompositeType (k : AccountKey) : Bool := k.type == .roleBased

def isLegacy (k : AccountKey) : Bool := k.type == .legacy

def maxNumKeysForMultiSig : ℕ := 10

def roleLast : ℕ := 3

/-- The loop of `CheckInstallable` over weighted keys, from the sum and the keys seen. -/
def checkWeightedKeys (threshold : ℕ) :
    ℕ → List (ℕ × ℕ) → List WeightedPublicKey → Except AccountKeyError Unit
  | sum, _, [] => if sum < threshold then .error .unsatisfiableThreshold else .ok ()
  | prevSum, seen, k :: ks =>
    let sum := uint64 (prevSum + k.weight)
    if k.weight = 0 then .error .zeroKeyWeight
    else if !k.key.isOnCurve then .error .unserializableKey
    else if seen.contains k.key.compress then .error .duplicatedKey
    else if sum < prevSum then .error .weightedSumOverflow
    else checkWeightedKeys threshold sum (k.key.compress :: seen) ks

/-- `CheckInstallable` of the keys that hold no other keys. -/
def checkInstallableSingle : AccountKey → Except AccountKeyError Unit
  | .nil => .error .accountKeyNilUninitializable
  | .legacy => .ok ()
  | .publicKey key => if key.isOnCurve then .ok () else .error .notOnCurve
  | .fail => .ok ()
  | .weightedMultiSig threshold keys =>
    if keys.length = 0 then .error .zeroLength
    else if maxNumKeysForMultiSig < keys.length then .error .maxKeysExceed
    else checkWeightedKeys threshold 0 [] keys
  | .roleBased _ => .error .nestedCompositeType

/-- Whether the data of a key is fit for an account; role-based members are refused. -/
def checkInstallable : AccountKey → Except AccountKeyError Unit
  | .roleBased keys =>
    if keys.length = 0 then .error .zeroLength
    else if roleLast < keys.length then .error .lengthTooLong
    else keys.forM checkInstallableSingle
  | k => k.checkInstallableSingle

/-- `CheckUpdatable` of the keys that hold no other keys. -/
def checkUpdatableSingle : AccountKey → AccountKey → Except AccountKeyError Unit
  | .nil, _ => .error .accountKeyNilUninitializable
  | .fail, _ => .error .accountKeyFailNotUpdatable
  | old, new => if old.type = new.type then new.checkInstallableSingle
      else .error .differentAccountKeyType

def checkReplacable (old new : AccountKey) : Except AccountKeyError Unit :=
  if old.type = new.type then old.checkUpdatableSingle new else new.checkInstallableSingle

/-- The members of a new role-based key against the old ones; nil leaves a role as it is. -/
def checkRoles : List AccountKey → List AccountKey → Except AccountKeyError Unit
  | _, [] => .ok ()
  | [], new => new.forM checkInstallableSingle
  | old :: olds, new :: news => do
    if new.isCompositeType then throw .nestedCompositeType
    if new.type ≠ .nil then checkReplacable old new
    checkRoles olds news

def checkUpdatable : AccountKey → AccountKey → Except AccountKeyError Unit
  | .roleBased old, .roleBased new =>
    if new.length = 0 then .error .zeroLength
    else if roleLast < new.length then .error .lengthTooLong
    else checkRoles old new
  | .roleBased _, _ => .error .differentAccountKeyType
  | old, new => old.checkUpdatableSingle new

def updateRoles : List AccountKey → List AccountKey → List AccountKey
  | olds, [] => olds
  | [], news => news
  | old :: olds, new :: news => (if new.type = .nil then old else new) :: updateRoles olds news

def update (old new : AccountKey) : Except AccountKeyError AccountKey := do
  if old.type = .nil then throw .differentAccountKeyType
  checkUpdatable old new
  match old, new with
  | .roleBased olds, .roleBased news => return .roleBased (updateRoles olds news)
  | _, _ => return new

/-- Whether public keys are on the curve; a role-based key ignores the errors of its members. -/
def encodes : AccountKey → Bool
  | .publicKey key => key.isOnCurve
  | .weightedMultiSig _ keys => keys.all (·.key.isOnCurve)
  | _ => true

end AccountKey

/-- What an account holds besides its nonce and its balance. -/
inductive AccountData
  | legacy (storageRoot : Storage) (code : Bytes)
  | externallyOwned (humanReadable : Bool) (key : AccountKey)
  | smartContract (humanReadable : Bool) (key : AccountKey) (storageRoot : Storage)
      (code : Bytes) (codeInfo : Params.CodeInfo)

namespace AccountData

def setStorageRoot (root : Storage) : AccountData → AccountData
  | .smartContract hr key _ code info => .smartContract hr key root code info
  | data => data

def setCode (code : Bytes) : AccountData → AccountData
  | .smartContract hr key root _ info => .smartContract hr key root code info
  | data => data

end AccountData

structure Account where
  nonce : ℕ
  balance : ℤ
  data : AccountData

/-- The three types of account. -/
inductive AccountType
  | legacy
  | externallyOwned
  | smartContract
  deriving DecidableEq

namespace Account

variable (acc : Account)

def type : AccountType :=
  match acc.data with
  | .legacy .. => .legacy
  | .externallyOwned .. => .externallyOwned
  | .smartContract .. => .smartContract

def setNonce (n : ℕ) : Account := { acc with nonce := n }

def setBalance (b : ℤ) : Account := { acc with balance := b }

def isProgramAccount : Bool := acc.type == .smartContract

def storageRoot : Storage :=
  match acc.data with
  | .smartContract _ _ root _ _ => root
  | _ => emptyStorage

def code (acc : Account) : Bytes :=
  match acc.data with
  | .smartContract _ _ _ code _ => code
  | _ => []

def codeInfo : Params.CodeInfo :=
  match acc.data with
  | .smartContract _ _ _ _ info => info
  | _ => 0

def setStorageRoot (root : Storage) : Account :=
  { acc with data := acc.data.setStorageRoot root }

def setCode (code : Bytes) : Account := { acc with data := acc.data.setCode code }

def getKey : AccountKey :=
  match acc.data with
  | .legacy .. => .legacy
  | .externallyOwned _ key => key
  | .smartContract _ key _ _ _ => key

def empty : Bool :=
  acc.nonce == 0 && acc.balance == 0 &&
    match acc.data with
    | .legacy _ code => code.isEmpty
    | .externallyOwned _ key => key.isLegacy
    | .smartContract _ _ _ code _ => code.isEmpty

/-- Only the key of an externally owned account can be changed. -/
def updateKey (newKey : AccountKey) : Except AccountKeyError Account :=
  match acc.data with
  | .externallyOwned hr key => do
    if key.type = newKey.type then
      let key' ← key.update newKey
      return { acc with data := .externallyOwned hr key' }
    newKey.checkInstallable
    return { acc with data := .externallyOwned hr newKey }
  | _ => .error .accountKeyNotModifiable

def encodes : Bool :=
  0 ≤ acc.balance &&
    match acc.data with
    | .legacy .. => true
    | _ => acc.getKey.encodes

def newEOA (humanReadable : Bool) (key : AccountKey) : Account :=
  ⟨0, 0, .externallyOwned humanReadable key⟩

def newSmartContract (nonce : ℕ) (humanReadable : Bool) (key : AccountKey)
    (info : Params.CodeInfo) : Account :=
  ⟨nonce, 0, .smartContract humanReadable key emptyStorage [] info⟩

variable (n : ℕ) (b : ℤ) (root : Storage) (c : Bytes)

@[simp] theorem setNonce_storageRoot : (acc.setNonce n).storageRoot = acc.storageRoot := rfl
@[simp] theorem setBalance_storageRoot : (acc.setBalance b).storageRoot = acc.storageRoot := rfl
@[simp] theorem setBalance_self : acc.setBalance acc.balance = acc := rfl

@[simp] theorem setCode_storageRoot : (acc.setCode c).storageRoot = acc.storageRoot := by
  obtain ⟨_, _, data⟩ := acc; cases data <;> rfl

@[simp] theorem setCode_setCode_self : (acc.setCode c).setCode acc.code = acc := by
  obtain ⟨_, _, data⟩ := acc; cases data <;> rfl

@[simp] theorem setStorageRoot_setStorageRoot (root' : Storage) :
    (acc.setStorageRoot root').setStorageRoot root = acc.setStorageRoot root := by
  obtain ⟨_, _, data⟩ := acc; cases data <;> rfl

@[simp] theorem setStorageRoot_empty : (acc.setStorageRoot root).empty = acc.empty := by
  obtain ⟨_, _, data⟩ := acc; cases data <;> rfl

@[simp] theorem setStorageRoot_encodes : (acc.setStorageRoot root).encodes = acc.encodes := by
  obtain ⟨_, _, data⟩ := acc; cases data <;> rfl

@[simp] theorem setStorageRoot_code : (acc.setStorageRoot root).code = acc.code := by
  obtain ⟨_, _, data⟩ := acc; cases data <;> rfl

@[simp] theorem setStorageRoot_codeInfo : (acc.setStorageRoot root).codeInfo = acc.codeInfo := by
  obtain ⟨_, _, data⟩ := acc; cases data <;> rfl

@[simp] theorem setStorageRoot_getKey : (acc.setStorageRoot root).getKey = acc.getKey := by
  obtain ⟨_, _, data⟩ := acc; cases data <;> rfl

@[simp] theorem setStorageRoot_type : (acc.setStorageRoot root).type = acc.type := by
  obtain ⟨_, _, data⟩ := acc; cases data <;> rfl

@[simp] theorem setStorageRoot_isProgramAccount :
    (acc.setStorageRoot root).isProgramAccount = acc.isProgramAccount := by
  simp [isProgramAccount]

theorem setCode_setStorageRoot :
    (acc.setCode c).setStorageRoot root = (acc.setStorageRoot root).setCode c := by
  obtain ⟨_, _, data⟩ := acc; cases data <;> rfl

theorem setStorageRoot_self (h : acc.storageRoot = root) : acc.setStorageRoot root = acc := by
  obtain ⟨_, _, data⟩ := acc; cases data <;> simp_all [setStorageRoot, storageRoot,
    AccountData.setStorageRoot]

theorem setStorageRoot_of_not_program (h : ¬ acc.isProgramAccount = true) :
    acc.setStorageRoot root = acc := by
  obtain ⟨_, _, data⟩ := acc
  cases data with
  | smartContract => exact absurd rfl h
  | _ => rfl

theorem updateKey_eq_ok {acc acc' : Account} {newKey : AccountKey}
    (h : acc.updateKey newKey = .ok acc') : acc'.storageRoot = acc.storageRoot ∧
      ∀ root, (acc.setStorageRoot root).updateKey newKey = .ok (acc'.setStorageRoot root) := by
  obtain ⟨n, b, data⟩ := acc
  cases data with
  | legacy | smartContract => cases h
  | externallyOwned hr key =>
    have hacc : ∃ key', acc' = ⟨n, b, .externallyOwned hr key'⟩ := by
      simp only [updateKey] at h
      split at h
      · obtain ⟨key', -, h⟩ := Foundation.bind_eq_ok.mp h
        exact ⟨key', (Except.ok.inj h).symm⟩
      · obtain ⟨_, -, h⟩ := Foundation.bind_eq_ok.mp h
        exact ⟨newKey, (Except.ok.inj h).symm⟩
    obtain ⟨key', rfl⟩ := hacc
    exact ⟨rfl, fun _ => h⟩

theorem updateKey_setStorageRoot_error {acc : Account} {newKey : AccountKey} {e : AccountKeyError}
    (h : acc.updateKey newKey = .error e) (root : Storage) :
    (acc.setStorageRoot root).updateKey newKey = .error e := by
  obtain ⟨n, b, data⟩ := acc
  cases data with
  | _ => exact h

def rootless : Account := acc.setStorageRoot emptyStorage

@[simp] theorem rootless_empty : acc.rootless.empty = acc.empty := acc.setStorageRoot_empty _
@[simp] theorem rootless_code : acc.rootless.code = acc.code := acc.setStorageRoot_code _
@[simp] theorem rootless_codeInfo : acc.rootless.codeInfo = acc.codeInfo :=
  acc.setStorageRoot_codeInfo _
@[simp] theorem rootless_getKey : acc.rootless.getKey = acc.getKey := acc.setStorageRoot_getKey _
@[simp] theorem rootless_type : acc.rootless.type = acc.type := acc.setStorageRoot_type _
@[simp] theorem rootless_encodes : acc.rootless.encodes = acc.encodes := acc.setStorageRoot_encodes _
@[simp] theorem rootless_isProgramAccount :
    acc.rootless.isProgramAccount = acc.isProgramAccount := acc.setStorageRoot_isProgramAccount _
@[simp] theorem rootless_setStorageRoot :
    acc.rootless.setStorageRoot root = acc.setStorageRoot root :=
  acc.setStorageRoot_setStorageRoot _ _

end Account

end Kaia
