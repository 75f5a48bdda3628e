import Kaia.State.StateDB

/-! # The world a state database shows

The abstract side of the state database: accounts, storage and flags, with no caches and no list of
changes. Only the recorded changes that marked an address are counted, and apart from these the
touches of the ripemd address that no revert takes back.
-/

namespace Kaia

/-- An account as it is shown, without its storage root, which may be behind the storage. -/
@[ext] structure Obj where
  account : Account
  committed : Storage
  storage : Storage
  selfDestructed : Bool
  deleted : Bool
  created : Bool

namespace Obj

variable (o : Obj)

def setBalance (b : ℤ) : Obj := { o with account := o.account.setBalance b }

def setNonce (n : ℕ) : Obj := { o with account := o.account.setNonce n }

def setCode (code : Bytes) : Obj := { o with account := o.account.setCode code }

def setState (key value : Hash) : Obj :=
  { o with storage := Function.update o.storage key value }

def selfDestruct : Obj := { o.setBalance 0 with selfDestructed := true }

def fresh (acc : Account) : Obj :=
  ⟨acc.setNonce 0, emptyStorage, emptyStorage, false, false, true⟩

@[simp] theorem setCode_setCode_self (code : Bytes) :
    (o.setCode code).setCode o.account.code = o := by
  simp [setCode]

@[simp] theorem setState_setState_self (key value : Hash) :
    (o.setState key value).setState key (o.storage key) = o := by
  simp [setState]

end Obj

def AccessList.undo {Ω : Type} (al : AccessList) : JournalEntry Ω → Option AccessList
  | .accessListAddAccountChange a => some (al.deleteAddress a)
  | .accessListAddSlotChange a slot => (al.deleteSlot a slot).toOption
  | _ => some al

@[ext] structure World extends Records where
  objects : Address → Option Obj
  dirties : Address → ℕ
  forced : ℕ

namespace World

variable (w : World) (a : Address)

def find : Option Obj := (w.objects a).filter fun o => !o.deleted

def read {α : Type} (w : World) (a : Address) (default : α) (f : Obj → α) : α :=
  ((w.find a).map f).getD default

/-- A change of the transaction, or a touch that survived a revert, has marked the address. -/
def Dirtied : Prop := 0 < w.dirties a ∨ (a = ripemd ∧ 0 < w.forced)

def setObject (o : Obj) : World :=
  { w with objects := Function.update w.objects a (some o) }

def removeObject : World :=
  { w with objects := Function.update w.objects a none }

def bump : World :=
  { w with dirties := Function.update w.dirties a (w.dirties a + 1) }

def unbump : World :=
  { w with dirties := Function.update w.dirties a (w.dirties a - 1) }

def withForced (n : ℕ) : World := { w with forced := n }

def change (o : Obj) : World := (w.setObject a o).bump a

/-! ## The operations -/

/-- A fresh account takes the place; the address counts as dirty if there was nothing at all. -/
def create (acc : Account) : World :=
  match w.objects a with
  | none => w.change a (.fresh acc)
  | some _ => w.setObject a (.fresh acc)

def createAccountWith (acc : Account) : World :=
  w.create a (acc.setBalance ((w.find a).elim acc.balance (·.account.balance)))

def getOrNew (acc : Account) : Obj × World :=
  match w.find a with
  | some o => (o, w)
  | none => (.fresh acc, w.create a acc)

def eoa : Account := .newEOA false .legacy

def contract : Account := .newSmartContract 1 false .fail 0

def touch : World :=
  let w := w.bump a
  if a = ripemd then w.withForced (w.forced + 1) else w

def addBalance (amount : ℤ) : World :=
  let (o, w) := w.getOrNew a eoa
  if amount = 0 then
    if o.account.empty then w.touch a else w
  else w.change a (o.setBalance (o.account.balance + amount))

def subBalance (amount : ℤ) : World :=
  let (o, w) := w.getOrNew a eoa
  if amount = 0 then w else w.change a (o.setBalance (o.account.balance - amount))

def setBalance (amount : ℤ) : World :=
  let (o, w) := w.getOrNew a eoa
  w.change a (o.setBalance amount)

def incNonce : World :=
  let (o, w) := w.getOrNew a eoa
  w.change a (o.setNonce (uint64 (o.account.nonce + 1)))

def setNonce (nonce : ℕ) : World :=
  let (o, w) := w.getOrNew a eoa
  w.change a (o.setNonce nonce)

def setCode (code : Bytes) : Bool × World :=
  let (o, w) := w.getOrNew a contract
  (o.account.isProgramAccount, w.change a (o.setCode code))

def setState (key value : Hash) : World :=
  let (o, w) := w.getOrNew a contract
  if o.storage key = value then w else w.change a (o.setState key value)

/-- The key of an account is changed without marking the address. -/
def updateKey (newKey : AccountKey) : Option StateDB.UpdateKeyError × World :=
  match w.find a with
  | none => (some .accountDoesNotExist, w)
  | some o =>
    match o.account.updateKey newKey with
    | .error e => (some (.key e), w)
    | .ok acc => (none, w.setObject a { o with account := acc })

def selfDestruct : World :=
  match w.find a with
  | none => w
  | some o => w.change a o.selfDestruct

def selfDestruct6780 : World :=
  match w.find a with
  | none => w
  | some o => if o.created then w.change a o.selfDestruct else w

def addLog (log : Log) : World :=
  { w with
    logs := Function.update w.logs w.thash (w.logs w.thash ++ [{ log with
      txHash := w.thash, blockHash := w.bhash, txIndex := w.txIndex, index := w.logSize }])
    logSize := w.logSize + 1 }

def addPreimage (hash : Hash) (preimage : Bytes) : World :=
  match w.preimages hash with
  | some _ => w
  | none => { w with preimages := Function.update w.preimages hash (some preimage) }

def addRefund (gas : ℕ) : World := { w with refund := uint64 (w.refund + gas) }

def subRefund (gas : ℕ) : Except Crash World :=
  if w.refund < gas then .error .refundCounterBelowZero
  else .ok { w with refund := w.refund - gas }

def setTransientState (key value : Hash) : World :=
  { w with transientStorage :=
    Function.update w.transientStorage a (Function.update (w.transientStorage a) key value) }

def addAddressToAccessList : World :=
  { w with accessList := (w.accessList.addAddress a).1 }

def addSlotToAccessList (slot : Hash) : Except Crash World := do
  let (al, _, _) ← w.accessList.addSlot a slot
  return { w with accessList := al }

/-! ## Undoing an entry -/

def restore (f : Obj → Obj) : Option World :=
  (w.find a).map fun o => (w.setObject a (f o)).unbump a

def undo : JournalEntry Obj → Option World
  | .createObjectChange a => some ((w.removeObject a).unbump a)
  | .resetObjectChange a prev _ => some (w.setObject a prev)
  | .selfDestructChange a prev prevbalance =>
    match w.find a with
    | none => some (w.unbump a)
    | some o => some ((w.setObject a { o.setBalance prevbalance with selfDestructed := prev }).unbump a)
  | .touchChange a => some (w.unbump a)
  | .balanceChange a prev => w.restore a (·.setBalance prev)
  | .nonceChange a prev => w.restore a (·.setNonce prev)
  | .codeChange a prevcode => w.restore a (·.setCode prevcode)
  | .storageChange a key prevalue => w.restore a (·.setState key prevalue)
  | .transientStorageChange a key prevalue => some (w.setTransientState a key prevalue)
  | .refundChange prev => some { w with refund := prev }
  | .addLogChange txhash => some { w with
      logs := Function.update w.logs txhash (w.logs txhash).dropLast
      logSize := w.logSize - 1 }
  | .addPreimageChange hash => some { w with preimages := Function.update w.preimages hash none }
  | .accessListAddAccountChange a => some { w with accessList := w.accessList.deleteAddress a }
  | .accessListAddSlotChange a slot =>
    match w.accessList.deleteSlot a slot with
    | .error _ => none
    | .ok al => some { w with accessList := al }

def undoAll (es : List (JournalEntry Obj)) : Option World := es.foldlM undo w

variable {w w' : World} {a b : Address} {o o' : Obj} {acc : Account} {n : ℕ}

theorem find_eq_some : w.find a = some o ↔ w.objects a = some o ∧ o.deleted = false := by
  simp [find, Option.filter_eq_some_iff]

theorem objects_of_find (h : w.find a = some o) : w.objects a = some o := (find_eq_some.mp h).1

@[simp] theorem setObject_objects :
    (w.setObject a o).objects = Function.update w.objects a (some o) := rfl

@[simp] theorem unbump_bump : (w.bump a).unbump a = w := by
  simp [bump, unbump]

@[simp] theorem setObject_setObject : (w.setObject a o).setObject a o' = w.setObject a o' := by
  simp [setObject]

theorem setObject_self (h : w.objects a = some o) : w.setObject a o = w := by
  simp [setObject, ← h]

@[simp] theorem removeObject_setObject (h : w.objects a = none) :
    (w.setObject a o).removeObject a = w := by
  simp [setObject, removeObject, ← h]

@[simp] theorem bump_setObject : (w.bump b).setObject a o = (w.setObject a o).bump b := rfl

@[simp] theorem bump_find : (w.bump b).find a = w.find a := rfl

@[simp] theorem find_setObject (h : o.deleted = false) : (w.setObject a o).find a = some o := by
  simp [find, h]

theorem find_setObject_of_ne (h : b ≠ a) : (w.setObject a o).find b = w.find b := by
  simp [find, Function.update_of_ne h]

@[simp] theorem find_change (h : o.deleted = false) : (w.change a o).find a = some o := by
  simp [change, h]

theorem change_untouched (w : World) (a : Address) (o : Obj) (b : Address)
    (hb : ¬ (w.change a o).Dirtied b) : (w.change a o).objects b = w.objects b ∨
      ∃ o', (w.change a o).objects b = some o' ∧ o'.created = true := by
  have hba : b ≠ a := by
    rintro rfl
    exact hb (.inl (by simp [change, bump]))
  exact .inl (Function.update_of_ne hba _ _)

@[simp] theorem withForced_forced : (w.withForced n).forced = n := rfl
@[simp] theorem withForced_find : (w.withForced n).find a = w.find a := rfl
@[simp] theorem withForced_self : w.withForced w.forced = w := rfl

/-! ## Undoing runs backwards -/

variable {w'' : World} {e : JournalEntry Obj} {es fs : List (JournalEntry Obj)}

theorem undo_withForced (w : World) (n : ℕ) (e : JournalEntry Obj) :
    (w.withForced n).undo e = (w.undo e).map (·.withForced n) := by
  cases e with
  | selfDestructChange a prev prevbalance =>
    simp only [undo, withForced_find]
    cases w.find a <;> rfl
  | accessListAddSlotChange a slot =>
    simp only [undo]
    show (match w.accessList.deleteSlot a slot with
      | .error _ => none
      | .ok al => some { w.withForced n with accessList := al }) = _
    cases w.accessList.deleteSlot a slot <;> rfl
  | balanceChange a prev | nonceChange a prev =>
    simp only [undo, restore, withForced_find]; cases w.find a <;> rfl
  | codeChange a prev => simp only [undo, restore, withForced_find]; cases w.find a <;> rfl
  | storageChange a key prev => simp only [undo, restore, withForced_find]; cases w.find a <;> rfl
  | _ => rfl

theorem undoAll_withForced (w : World) (n : ℕ) (es : List (JournalEntry Obj)) :
    (w.withForced n).undoAll es = (w.undoAll es).map (·.withForced n) := by
  induction es generalizing w with
  | nil => rfl
  | cons e es ih =>
    simp only [undoAll, List.foldlM_cons, undo_withForced] at ih ⊢
    cases w.undo e with
    | none => rfl
    | some w' => exact ih w'

theorem undoAll_append (w : World) (es fs : List (JournalEntry Obj)) :
    w.undoAll (es ++ fs) = (w.undoAll es).bind (·.undoAll fs) := by
  simp [undoAll, List.foldlM_append]

/-- The entries take the second world back to the first, up to the touches that cannot
be reverted. -/
def Undoes (w w' : World) (es : List (JournalEntry Obj)) : Prop :=
  w'.undoAll es = some (w.withForced w'.forced)

theorem Undoes.refl (w : World) : w.Undoes w [] := rfl

theorem Undoes.trans (h : w.Undoes w' es) (h' : w'.Undoes w'' fs) : w.Undoes w'' (fs ++ es) := by
  unfold Undoes at *
  rw [undoAll_append, h', Option.bind_some, undoAll_withForced, h]
  rfl

theorem Undoes.of_undo (h : w'.undo e = some (w.withForced w'.forced)) : w.Undoes w' [e] := by
  simp [Undoes, undoAll, h]

theorem restore_change {f : Obj → Obj} (hfind : w.find a = some o) (hdel : o'.deleted = false)
    (hf : f o' = o) : (w.change a o').restore a f = some w := by
  rw [restore, find_change hdel, Option.map_some, hf]
  simp only [change, bump_setObject, setObject_setObject, unbump_bump]
  rw [setObject_self (objects_of_find hfind)]

theorem undo_accessList (h : w.undo e = some w') : w.accessList.undo e = some w'.accessList := by
  have hrestore : ∀ a f, w.restore a f = some w' → w'.accessList = w.accessList := by
    intro a f hr
    obtain ⟨o, -, rfl⟩ := Option.map_eq_some_iff.mp hr
    rfl
  cases e with
  | balanceChange a prev | nonceChange a prev => exact congrArg some (hrestore a _ h).symm
  | codeChange a prev => exact congrArg some (hrestore a _ h).symm
  | storageChange a key prev => exact congrArg some (hrestore a _ h).symm
  | selfDestructChange a prev prevbalance =>
    simp only [undo] at h
    cases hf : w.find a with
    | none | some => rw [hf] at h; cases h; rfl
  | accessListAddSlotChange a slot =>
    simp only [undo] at h
    simp only [AccessList.undo]
    cases hd : w.accessList.deleteSlot a slot with
    | error err => simp [hd] at h
    | ok al => rw [hd] at h; cases h; rfl
  | _ => cases h; rfl

theorem undo_addLog (w : World) (log : Log) :
    (w.addLog log).undo (.addLogChange w.thash) = some w := by
  simp [undo, addLog]

theorem undo_addPreimage {hash : Hash} (h : w.preimages hash = none) (preimage : Bytes) :
    (w.addPreimage hash preimage).undo (.addPreimageChange hash) = some w := by
  have hself : Function.update w.preimages hash none = w.preimages :=
    Function.update_eq_self_iff.mpr h.symm
  simp [undo, addPreimage, h, hself]

theorem undo_setTransientState (w : World) (a : Address) (key value : Hash) :
    (w.setTransientState a key value).undo
      (.transientStorageChange a key (w.transientStorage a key)) = some w := by
  simp [undo, setTransientState]

end World

end Kaia
