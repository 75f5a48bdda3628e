import Mathlib
import Kaia.State.Account
import Kaia.State.AccessList

/-! # The state database

Accounts are read from the trie, or from the flat snapshot, into state objects and changed there.
What a revert has to take back is recorded in the journal. At the end of a transaction the objects
are written to the trie; storage roots may be left for later. A trie is its contents, and so is its
root; the caches are kept as the source keeps them.
-/

namespace Kaia

structure Log where
  address : Address
  topics : List Hash
  data : Bytes
  blockNumber : ℕ
  txHash : Hash
  txIndex : ℕ
  blockHash : Hash
  index : ℕ
  deriving DecidableEq

/-- What a state database records besides accounts. -/
structure Records where
  refund : ℕ
  thash : Hash
  bhash : Hash
  txIndex : ℕ
  logs : Hash → List Log
  logSize : ℕ
  preimages : Hash → Option Bytes
  accessList : AccessList
  transientStorage : Address → Storage

/-- An account that is being modified. The storage trie is opened on first use. -/
structure StateObject where
  account : Account
  storageTrie : Option Storage
  originStorage : Hash → Option Hash
  dirtyStorage : Hash → Option Hash
  selfDestructed : Bool
  deleted : Bool
  created : Bool

/-- A modification that can be taken back. The object that a reset replaced is kept as
a whole. -/
inductive JournalEntry (Ω : Type)
  | createObjectChange (account : Address)
  | resetObjectChange (account : Address) (prev : Ω) (prevdestruct : Bool)
  | selfDestructChange (account : Address) (prev : Bool) (prevbalance : ℤ)
  | balanceChange (account : Address) (prev : ℤ)
  | nonceChange (account : Address) (prev : ℕ)
  | storageChange (account : Address) (key prevalue : Hash)
  | codeChange (account : Address) (prevcode : Bytes)
  | refundChange (prev : ℕ)
  | addLogChange (txhash : Hash)
  | addPreimageChange (hash : Hash)
  | touchChange (account : Address)
  | accessListAddAccountChange (address : Address)
  | accessListAddSlotChange (address : Address) (slot : Hash)
  | transientStorageChange (account : Address) (key prevalue : Hash)

/-- The address an entry marks as dirty. A reset marks none. -/
def JournalEntry.dirtied {Ω : Type} : JournalEntry Ω → Option Address
  | .createObjectChange a => some a
  | .selfDestructChange a _ _ => some a
  | .balanceChange a _ => some a
  | .nonceChange a _ => some a
  | .storageChange a _ _ => some a
  | .codeChange a _ => some a
  | .touchChange a => some a
  | _ => none

/-- The entries, newest first, and one occurrence of an address for every change that
marks it as dirty. -/
structure Journal where
  entries : List (JournalEntry StateObject)
  dirties : List Address

namespace Journal

def newJournal : Journal := ⟨[], []⟩

def dirty (j : Journal) (a : Address) : Journal := { j with dirties := a :: j.dirties }

def append (j : Journal) (e : JournalEntry StateObject) : Journal :=
  ⟨e :: j.entries, match e.dirtied with
    | some a => a :: j.dirties
    | none => j.dirties⟩

def length (j : Journal) : ℕ := j.entries.length

end Journal

structure Revision where
  id : ℕ
  journalIndex : ℕ
  deriving DecidableEq

abbrev StateRoot := Address → Option Account

structure StateDB extends Records where
  trie : StateRoot
  snap : Option StateRoot
  snapDestructs : Address → Bool
  stateObjects : AList fun _ : Address => StateObject
  stateObjectsDirty : Finset Address
  stateObjectsDirtyStorage : List Address
  journal : Journal
  validRevisions : List Revision
  nextRevisionId : ℕ

def ripemd : Address := 3

namespace StateObject

def newObject (acc : Account) : StateObject :=
  ⟨acc, none, fun _ => none, fun _ => none, false, false, false⟩

def newCreated (acc : Account) : StateObject :=
  { newObject (acc.setNonce 0) with created := true }

variable (o : StateObject)

def empty : Bool := o.account.empty

def trie : Storage := o.storageTrie.getD o.account.storageRoot

def getStorageTrie : Storage × StateObject :=
  (o.trie, { o with storageTrie := some o.trie })

def setOrigin (key value : Hash) : StateObject :=
  { o with originStorage := Function.update o.originStorage key (some value) }

def setState (key value : Hash) : StateObject :=
  { o with dirtyStorage := Function.update o.dirtyStorage key (some value) }

def setNonce (n : ℕ) : StateObject :=
  { o with account := o.account.setNonce n }

def setBalance (b : ℤ) : StateObject :=
  { o with account := o.account.setBalance b }

def setCode (code : Bytes) : StateObject :=
  { o with account := o.account.setCode code }

/-- The new value of a dirty slot, if it is not the original one; one never read counts as zero. -/
def changedSlot (key : Hash) : Option Hash :=
  match o.dirtyStorage key with
  | some v => if v = (o.originStorage key).getD 0 then none else some v
  | none => none

def updateStorageTrie : StateObject :=
  { o with
    storageTrie := some fun key => (o.changedSlot key).getD (o.trie key)
    originStorage := fun key => (o.changedSlot key).or (o.originStorage key)
    dirtyStorage := fun _ => none }

def settle (setStorageRoot : Bool) (o : StateObject) : StateObject :=
  let o := o.updateStorageTrie
  if o.account.isProgramAccount && setStorageRoot then
    { o with account := o.account.setStorageRoot o.trie } else o

def commitStorageTrie : StateObject := o.settle true

end StateObject

namespace StateDB

/-- A database on the state of a root, with or without its flat snapshot. -/
def new (root : StateRoot) (snaps : Bool) : StateDB where
  refund := 0
  thash := 0
  bhash := 0
  txIndex := 0
  logs := fun _ => []
  logSize := 0
  preimages := fun _ => none
  accessList := .newAccessList
  transientStorage := fun _ => emptyStorage
  trie := root
  snap := if snaps then some root else none
  snapDestructs := fun _ => false
  stateObjects := ∅
  stateObjectsDirty := ∅
  stateObjectsDirtyStorage := []
  journal := .newJournal
  validRevisions := []
  nextRevisionId := 0

variable (s : StateDB) (a : Address)

variable (e : JournalEntry StateObject) (o : StateObject)

def append : StateDB :=
  { s with journal := s.journal.append e }

def setStateObject : StateDB :=
  { s with stateObjects := s.stateObjects.insert a o }

def load : Option Account :=
  match s.snap with
  | some flat => flat a
  | none => s.trie a

/-- The object of an address, deleted or not; it becomes live. -/
def getDeletedStateObject : Option StateObject × StateDB :=
  match s.stateObjects.lookup a with
  | some o => (some o, s)
  | none =>
    match s.load a with
    | none => (none, s)
    | some acc => (some (.newObject acc), s.setStateObject a (.newObject acc))

def getStateObject : Option StateObject × StateDB :=
  match s.getDeletedStateObject a with
  | (some o, s) => (if o.deleted then none else some o, s)
  | (none, s) => (none, s)

/-! ## Reading -/

def readObject {α : Type} (s : StateDB) (a : Address) (default : α) (f : StateObject → α) :
    α × StateDB :=
  match s.getStateObject a with
  | (some o, s) => (f o, s)
  | (none, s) => (default, s)

def exist : Bool × StateDB := s.readObject a false fun _ => true

def isEmpty : Bool × StateDB := s.readObject a true (·.empty)

def getBalance : ℤ × StateDB := s.readObject a 0 (·.account.balance)

def getNonce : ℕ × StateDB := s.readObject a 0 (·.account.nonce)

def getCode : Bytes × StateDB := s.readObject a [] (·.account.code)

def getAccount : Option Account × StateDB :=
  s.readObject a none (some ·.account)

def isContractAvailable : Bool × StateDB :=
  s.readObject a false fun o => !o.account.code.isEmpty && !o.selfDestructed

def isProgramAccount : Bool × StateDB :=
  s.readObject a false (·.account.isProgramAccount)

def isValidCodeFormat : Bool × StateDB :=
  s.readObject a false fun o =>
    o.account.isProgramAccount && Params.CodeFormat.validate o.account.codeInfo.getCodeFormat

def getVmVersion : (ℕ × Bool) × StateDB :=
  s.readObject a (Params.vmVersion0, false) fun o =>
    if o.account.isProgramAccount then (o.account.codeInfo.getVmVersion, true)
    else (Params.vmVersion0, false)

def getKey : AccountKey × StateDB :=
  s.readObject a .legacy (·.account.getKey)

def hasSelfDestructed : Bool × StateDB :=
  s.readObject a false (·.selfDestructed)

def isCreated : Bool × StateDB := s.readObject a false (·.created)

def flatStorage (flat : StateRoot) (a : Address) (key : Hash) : Hash :=
  match flat a with
  | some acc => acc.storageRoot key
  | none => 0

/-- The value before the transaction; zero and not cached for an account destructed in the block. -/
def objectCommittedState (key : Hash) : Hash × StateObject :=
  match o.originStorage key with
  | some v => (v, o)
  | none =>
    match s.snap with
    | some flat =>
      if s.snapDestructs a then (0, o)
      else (flatStorage flat a key, o.setOrigin key (flatStorage flat a key))
    | none =>
      let (tr, o) := o.getStorageTrie
      (tr key, o.setOrigin key (tr key))

def objectState (key : Hash) : Hash × StateObject :=
  match o.dirtyStorage key with
  | some v => (v, o)
  | none => s.objectCommittedState a o key

/-- Read a slot of the object of an address, which caches it; zero where there is none. -/
def readSlot (key : Hash)
    (read : StateDB → Address → StateObject → Hash → Hash × StateObject) : Hash × StateDB :=
  match s.getStateObject a with
  | (some o, s) =>
    let (v, o) := read s a o key
    (v, s.setStateObject a o)
  | (none, s) => (0, s)

def getState (key : Hash) : Hash × StateDB :=
  s.readSlot a key objectState

def getCommittedState (key : Hash) : Hash × StateDB :=
  s.readSlot a key objectCommittedState

/-! ## Creating objects -/

def setDestructed : StateDB :=
  { s with snapDestructs :=
    if s.snap.isSome then Function.update s.snapDestructs a true else s.snapDestructs }

def change : StateDB :=
  (s.append e).setStateObject a o

/-- Put a fresh object in place; what was there is returned unless it was deleted. -/
def createObjectWithAccount (acc : Account) : StateObject × Option StateObject × StateDB :=
  let newobj := .newCreated acc
  match s.getDeletedStateObject a with
  | (none, s) => (newobj, none, s.change a (.createObjectChange a) newobj)
  | (some prev, s) =>
    let prevdestruct := s.snap.isSome && s.snapDestructs a
    (newobj, if prev.deleted then none else some prev,
      (s.setDestructed a).change a (.resetObjectChange a prev prevdestruct) newobj)

def createObject : StateObject × Option StateObject × StateDB :=
  s.createObjectWithAccount a (.newEOA false .legacy)

def getOrNewStateObject : StateObject × StateDB :=
  match s.getStateObject a with
  | (some o, s) => (o, s)
  | (none, s) =>
    let (o, _, s) := s.createObject a
    (o, s)

def getOrNewSmartContract : StateObject × StateDB :=
  match s.getStateObject a with
  | (some o, s) => (o, s)
  | (none, s) =>
    let (o, _, s) := s.createObjectWithAccount a (.newSmartContract 1 false .fail 0)
    (o, s)

def createAccountWith (acc : Account) : StateDB :=
  match s.createObjectWithAccount a acc with
  | (newobj, some prev, s) => s.setStateObject a (newobj.setBalance prev.account.balance)
  | (_, none, s) => s

def createEOA (humanReadable : Bool) (key : AccountKey) : StateDB :=
  s.createAccountWith a (.newEOA humanReadable key)

def createSmartContractAccountWithKey (humanReadable : Bool)
    (key : AccountKey) (format : ℕ) (r : Params.Rules) : StateDB :=
  s.createAccountWith a
    (.newSmartContract 1 humanReadable key (Params.newCodeInfoWithRules format r))

def createSmartContractAccount (format : ℕ) (r : Params.Rules) : StateDB :=
  s.createSmartContractAccountWithKey a false .fail format r

/-! ## Changing accounts -/

def touch : StateDB :=
  let s := s.append (.touchChange a)
  if a = ripemd then { s with journal := s.journal.dirty a } else s

def objectSetBalance (b : ℤ) : StateDB :=
  s.change a (.balanceChange a o.account.balance) (o.setBalance b)

def addBalance (amount : ℤ) : StateDB :=
  let (o, s) := s.getOrNewStateObject a
  if amount = 0 then
    if o.empty then s.touch a else s
  else s.objectSetBalance a o (o.account.balance + amount)

def subBalance (amount : ℤ) : StateDB :=
  let (o, s) := s.getOrNewStateObject a
  if amount = 0 then s else s.objectSetBalance a o (o.account.balance - amount)

def setBalance (amount : ℤ) : StateDB :=
  let (o, s) := s.getOrNewStateObject a
  s.objectSetBalance a o amount

def incNonce : StateDB :=
  let (o, s) := s.getOrNewStateObject a
  s.change a (.nonceChange a o.account.nonce) (o.setNonce (uint64 (o.account.nonce + 1)))

def setNonce (nonce : ℕ) : StateDB :=
  let (o, s) := s.getOrNewStateObject a
  s.change a (.nonceChange a o.account.nonce) (o.setNonce nonce)

/-- The flag tells whether the account is a program account; if not, the entry is made
all the same. -/
def setCode (code : Bytes) : Bool × StateDB :=
  let (o, s) := s.getOrNewSmartContract a
  (o.account.isProgramAccount, s.change a (.codeChange a o.account.code) (o.setCode code))

def setState (key value : Hash) : StateDB :=
  let (o, s) := s.getOrNewSmartContract a
  let (prev, o) := s.objectState a o key
  let s := s.setStateObject a o
  if prev = value then s else s.change a (.storageChange a key prev) (o.setState key value)

/-- The reasons why a key is not updated. -/
inductive UpdateKeyError
  | accountDoesNotExist
  | key (e : AccountKeyError)
  deriving DecidableEq

/-- The key is changed in place: there is no entry for it. -/
def updateKey (newKey : AccountKey) : Option UpdateKeyError × StateDB :=
  match s.getStateObject a with
  | (none, s) => (some .accountDoesNotExist, s)
  | (some o, s) =>
    match o.account.updateKey newKey with
    | .error e => (some (.key e), s)
    | .ok acc => (none, s.setStateObject a { o with account := acc })

def selfDestruct : StateDB :=
  match s.getStateObject a with
  | (none, s) => s
  | (some o, s) =>
    s.change a (.selfDestructChange a o.selfDestructed o.account.balance)
      { o.setBalance 0 with selfDestructed := true }

def selfDestruct6780 : StateDB :=
  match s.getStateObject a with
  | (none, s) => s
  | (some o, s) => if o.created then s.selfDestruct a else s

/-! ## The other records -/

def addLog (log : Log) : StateDB :=
  let s := s.append (.addLogChange s.thash)
  let log := { log with
    txHash := s.thash, blockHash := s.bhash, txIndex := s.txIndex, index := s.logSize }
  { s with
    logs := Function.update s.logs s.thash (s.logs s.thash ++ [log])
    logSize := s.logSize + 1 }

def addPreimage (hash : Hash) (preimage : Bytes) : StateDB :=
  match s.preimages hash with
  | some _ => s
  | none =>
    let s := s.append (.addPreimageChange hash)
    { s with preimages := Function.update s.preimages hash (some preimage) }

def addRefund (gas : ℕ) : StateDB :=
  let s := s.append (.refundChange s.refund)
  { s with refund := uint64 (s.refund + gas) }

def subRefund (gas : ℕ) : Except Crash StateDB :=
  let s := s.append (.refundChange s.refund)
  if s.refund < gas then .error .refundCounterBelowZero
  else .ok { s with refund := s.refund - gas }

def getTransientState (key : Hash) : Hash := s.transientStorage a key

def writeTransientState (key value : Hash) : StateDB :=
  { s with transientStorage :=
    Function.update s.transientStorage a (Function.update (s.transientStorage a) key value) }

def setTransientState (key value : Hash) : StateDB :=
  let prev := s.getTransientState a key
  if prev = value then s
  else (s.append (.transientStorageChange a key prev)).writeTransientState a key value

def addAddressToAccessList : StateDB :=
  match s.accessList.addAddress a with
  | (_, false) => s
  | (al, true) => { s.append (.accessListAddAccountChange a) with accessList := al }

def addSlotToAccessList (slot : Hash) : Except Crash StateDB := do
  let (al, addrMod, slotMod) ← s.accessList.addSlot a slot
  let s := if addrMod then s.append (.accessListAddAccountChange a) else s
  let s := if slotMod then s.append (.accessListAddSlotChange a slot) else s
  return { s with accessList := al }

def setTxContext (thash bhash : Hash) (ti : ℕ) : StateDB :=
  { s with thash := thash, bhash := bhash, txIndex := ti }

/-! ## Taking changes back -/

def restoreObject (f : StateObject → StateObject) : Except Crash StateDB :=
  match s.getStateObject a with
  | (none, _) => .error (.goPanic .nilPointer)
  | (some o, s) => .ok (s.setStateObject a (f o))

def revertEntry : JournalEntry StateObject → Except Crash StateDB
  | .createObjectChange a => .ok { s with
      stateObjects := s.stateObjects.erase a
      stateObjectsDirty := s.stateObjectsDirty.erase a }
  | .resetObjectChange a prev prevdestruct =>
    let s := s.setStateObject a prev
    .ok (if !prevdestruct && s.snap.isSome then
      { s with snapDestructs := Function.update s.snapDestructs a false } else s)
  | .selfDestructChange a prev prevbalance =>
    match s.getStateObject a with
    | (none, s) => .ok s
    | (some o, s) => .ok (s.setStateObject a { o.setBalance prevbalance with selfDestructed := prev })
  | .touchChange _ => .ok s
  | .balanceChange a prev => s.restoreObject a (·.setBalance prev)
  | .nonceChange a prev => s.restoreObject a (·.setNonce prev)
  | .codeChange a prevcode => s.restoreObject a (·.setCode prevcode)
  | .storageChange a key prevalue => s.restoreObject a (·.setState key prevalue)
  | .transientStorageChange a key prevalue => .ok (s.writeTransientState a key prevalue)
  | .refundChange prev => .ok { s with refund := prev }
  | .addLogChange txhash => .ok { s with
      logs := Function.update s.logs txhash (s.logs txhash).dropLast
      logSize := s.logSize - 1 }
  | .addPreimageChange hash => .ok { s with preimages := Function.update s.preimages hash none }
  | .accessListAddAccountChange a => .ok { s with accessList := s.accessList.deleteAddress a }
  | .accessListAddSlotChange a slot => do
    let al ← s.accessList.deleteSlot a slot
    return { s with accessList := al }

def dropEntry (es : List (JournalEntry StateObject)) : StateDB :=
  { s with journal := ⟨es, match e.dirtied with
    | some a => s.journal.dirties.erase a
    | none => s.journal.dirties⟩ }

/-- `journal.revert`: take the newest entries back, one after the other. -/
def journalRevert : ℕ → StateDB → Except Crash StateDB
  | 0, s => .ok s
  | n + 1, s =>
    match s.journal.entries with
    | [] => .error (.goPanic .indexOutOfRange)
    | e :: es => do
      let s ← s.revertEntry e
      journalRevert n (s.dropEntry e es)

def snapshot : ℕ × StateDB :=
  (s.nextRevisionId, { s with
    nextRevisionId := s.nextRevisionId + 1
    validRevisions := s.validRevisions ++ [⟨s.nextRevisionId, s.journal.length⟩] })

def revertToSnapshot (revid : ℕ) : Except Crash StateDB :=
  let idx := s.validRevisions.findIdx (revid ≤ ·.id)
  match s.validRevisions[idx]? with
  | none => .error .revisionCannotBeReverted
  | some rev =>
    if rev.id ≠ revid then .error .revisionCannotBeReverted
    else do
      let s ← journalRevert (s.journal.length - rev.journalIndex) s
      return { s with validRevisions := s.validRevisions.take idx }

/-! ## The end of a transaction and of a block -/

def clearJournalAndRefund : StateDB :=
  { s with journal := .newJournal, validRevisions := [], refund := 0 }

def updateStateObject (so : StateObject) : Except Crash StateDB :=
  if so.account.encodes then .ok { s with trie := Function.update s.trie a (some so.account) }
  else .error .encodeObject

def deleteStateObject : StateDB :=
  { s with trie := Function.update s.trie a none }

def finaliseDeleted (so : StateObject) : StateDB :=
  let s := (s.deleteStateObject a).setDestructed a
  { s.setStateObject a { so with deleted := true, created := false } with
    stateObjectsDirty := insert a s.stateObjectsDirty }

/-- Write an object at the end of a transaction; its storage root is set, or remembered. -/
def finaliseUpdated (setStorageRoot : Bool) (s : StateDB) (a : Address) (so : StateObject) :
    Except Crash StateDB := do
  let so := so.settle setStorageRoot
  let later := if so.account.isProgramAccount && !setStorageRoot then
    s.stateObjectsDirtyStorage.insert a else s.stateObjectsDirtyStorage
  let s ← s.updateStateObject a so
  return { s.setStateObject a { so with created := false } with
    stateObjectsDirtyStorage := later
    stateObjectsDirty := insert a s.stateObjectsDirty }

/-- One round of the loop of `Finalise` over the dirty addresses. -/
def finaliseStep (deleteEmptyObjects setStorageRoot : Bool) (s : StateDB) (a : Address) :
    Except Crash StateDB :=
  match s.stateObjects.lookup a with
  | none => .ok s
  | some so =>
    if so.selfDestructed || (deleteEmptyObjects && so.empty) then .ok (s.finaliseDeleted a so)
    else s.finaliseUpdated setStorageRoot a so

/-- One round of the loop of `Finalise` over the contracts left for later, deleted or not. -/
def storageRootStep : Except Crash StateDB :=
  match s.stateObjects.lookup a with
  | none => .ok s
  | some so =>
    if so.account.isProgramAccount then
      match so.storageTrie with
      | none => .error (.goPanic .nilPointer)
      | some tr =>
        let so := { so with account := so.account.setStorageRoot tr }
        (s.setStateObject a so).updateStateObject a so
    else s.updateStateObject a so

def updateStorageRoots : Except Crash StateDB := do
  let s ← s.stateObjectsDirtyStorage.dedup.foldlM storageRootStep s
  return { s with stateObjectsDirtyStorage := [] }

def finalise (deleteEmptyObjects setStorageRoot : Bool) : Except Crash StateDB := do
  let s ← s.journal.dirties.dedup.foldlM (finaliseStep deleteEmptyObjects setStorageRoot) s
  let s := s.clearJournalAndRefund
  if setStorageRoot then s.updateStorageRoots else .ok s

def intermediateRoot (deleteEmptyObjects : Bool) :
    Except Crash (StateRoot × StateDB) := do
  let s ← s.finalise deleteEmptyObjects true
  return (s.trie, s)

/-- One round of the loop of `Commit` over the live objects. -/
def commitStep (deleteEmptyObjects : Bool) (s : StateDB) (a : Address) : Except Crash StateDB :=
  match s.stateObjects.lookup a with
  | none => .ok s
  | some so =>
    let isDirty := decide (a ∈ s.stateObjectsDirty)
    let s := { s with stateObjectsDirty := s.stateObjectsDirty.erase a }
    if so.selfDestructed || (isDirty && deleteEmptyObjects && so.empty) then
      .ok ((s.deleteStateObject a).setStateObject a { so with deleted := true })
    else if isDirty then
      let so := if so.account.isProgramAccount then so.commitStorageTrie else so
      (s.setStateObject a so).updateStateObject a so
    else .ok s

def commit (deleteEmptyObjects : Bool) : Except Crash (StateRoot × StateDB) := do
  let s := { s with stateObjectsDirty := s.stateObjectsDirty ∪ s.journal.dirties.toFinset }
  let s ← s.stateObjects.keys.foldlM (commitStep deleteEmptyObjects) s
  return (s.trie, { s.clearJournalAndRefund with snap := none })

end StateDB

end Kaia
