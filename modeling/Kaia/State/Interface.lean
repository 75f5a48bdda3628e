import Kaia.Foundation.Programs
import Kaia.State.Revert

/-! # The interface of the state database

The methods that transactions and contracts call, as calls of a program. The database simulates the
world, so what a program does can be read off the world, and its journal can take it back.
-/

namespace Kaia

open Foundation

/-- A call of a method of the state database. -/
inductive DbCall
  | exist (a : Address)
  | isEmpty (a : Address)
  | getBalance (a : Address)
  | getNonce (a : Address)
  | getCode (a : Address)
  | isContractAvailable (a : Address)
  | isProgramAccount (a : Address)
  | isValidCodeFormat (a : Address)
  | getVmVersion (a : Address)
  | getKey (a : Address)
  | hasSelfDestructed (a : Address)
  | getState (a : Address) (key : Hash)
  | getCommittedState (a : Address) (key : Hash)
  | getRefund
  | getTxHash
  | getTransientState (a : Address) (key : Hash)
  | addressInAccessList (a : Address)
  | slotInAccessList (a : Address) (slot : Hash)
  | addBalance (a : Address) (amount : ℤ)
  | subBalance (a : Address) (amount : ℤ)
  | setBalance (a : Address) (amount : ℤ)
  | incNonce (a : Address)
  | setNonce (a : Address) (nonce : ℕ)
  | setCode (a : Address) (code : Bytes)
  | setState (a : Address) (key value : Hash)
  | setTransientState (a : Address) (key value : Hash)
  | createEOA (a : Address) (humanReadable : Bool) (key : AccountKey)
  | createSmartContractAccountWithKey (a : Address) (humanReadable : Bool) (key : AccountKey)
      (format : ℕ) (r : Params.Rules)
  | createSmartContractAccount (a : Address) (format : ℕ) (r : Params.Rules)
  | selfDestruct (a : Address)
  | selfDestruct6780 (a : Address)
  | addLog (log : Log)
  | addRefund (gas : ℕ)
  | subRefund (gas : ℕ)
  | addPreimage (hash : Hash) (preimage : Bytes)
  | addAddressToAccessList (a : Address)
  | addSlotToAccessList (a : Address) (slot : Hash)

/-- The type of the answer to a call. -/
@[reducible] def DbCall.Ret : DbCall → Type
  | .exist _ | .isEmpty _ | .isContractAvailable _ | .isProgramAccount _ | .isValidCodeFormat _
  | .hasSelfDestructed _ | .addressInAccessList _ | .setCode _ _ => Bool
  | .getBalance _ => ℤ
  | .getNonce _ | .getRefund => ℕ
  | .getCode _ => Bytes
  | .getVmVersion _ => ℕ × Bool
  | .getKey _ => AccountKey
  | .getState _ _ | .getCommittedState _ _ | .getTransientState _ _ | .getTxHash => Hash
  | .slotInAccessList _ _ => Bool × Bool
  | _ => Unit

abbrev DbProg := Prog DbCall.Ret Crash

namespace StateDB

/-- The answer of the database to a call. -/
def answer (s : StateDB) : (c : DbCall) → Except Crash (c.Ret × StateDB)
  | .exist a => .ok (s.exist a)
  | .isEmpty a => .ok (s.isEmpty a)
  | .getBalance a => .ok (s.getBalance a)
  | .getNonce a => .ok (s.getNonce a)
  | .getCode a => .ok (s.getCode a)
  | .isContractAvailable a => .ok (s.isContractAvailable a)
  | .isProgramAccount a => .ok (s.isProgramAccount a)
  | .isValidCodeFormat a => .ok (s.isValidCodeFormat a)
  | .getVmVersion a => .ok (s.getVmVersion a)
  | .getKey a => .ok (s.getKey a)
  | .hasSelfDestructed a => .ok (s.hasSelfDestructed a)
  | .getState a key => .ok (s.getState a key)
  | .getCommittedState a key => .ok (s.getCommittedState a key)
  | .getRefund => .ok (s.refund, s)
  | .getTxHash => .ok (s.thash, s)
  | .getTransientState a key => .ok (s.getTransientState a key, s)
  | .addressInAccessList a => .ok (s.accessList.containsAddress a, s)
  | .slotInAccessList a slot => (s.accessList.contains a slot).map (·, s)
  | .addBalance a amount => .ok ((), s.addBalance a amount)
  | .subBalance a amount => .ok ((), s.subBalance a amount)
  | .setBalance a amount => .ok ((), s.setBalance a amount)
  | .incNonce a => .ok ((), s.incNonce a)
  | .setNonce a nonce => .ok ((), s.setNonce a nonce)
  | .setCode a code => .ok (s.setCode a code)
  | .setState a key value => .ok ((), s.setState a key value)
  | .setTransientState a key value => .ok ((), s.setTransientState a key value)
  | .createEOA a humanReadable key => .ok ((), s.createEOA a humanReadable key)
  | .createSmartContractAccountWithKey a humanReadable key format r =>
    .ok ((), s.createSmartContractAccountWithKey a humanReadable key format r)
  | .createSmartContractAccount a format r => .ok ((), s.createSmartContractAccount a format r)
  | .selfDestruct a => .ok ((), s.selfDestruct a)
  | .selfDestruct6780 a => .ok ((), s.selfDestruct6780 a)
  | .addLog log => .ok ((), s.addLog log)
  | .addRefund gas => .ok ((), s.addRefund gas)
  | .subRefund gas => (s.subRefund gas).map ((), ·)
  | .addPreimage hash preimage => .ok ((), s.addPreimage hash preimage)
  | .addAddressToAccessList a => .ok ((), s.addAddressToAccessList a)
  | .addSlotToAccessList a slot => (s.addSlotToAccessList a slot).map ((), ·)

def handler : Handler DbCall.Ret Crash StateDB where
  Mark := ℕ
  call c s := s.answer c
  mark := snapshot
  revert revid s := s.revertToSnapshot revid

end StateDB

namespace World

/-- The answer of the world to a call. -/
def answer (w : World) : (c : DbCall) → Except Crash (c.Ret × World)
  | .exist a => .ok ((w.find a).isSome, w)
  | .isEmpty a => .ok (w.read a true (·.account.empty), w)
  | .getBalance a => .ok (w.read a (0 : ℤ) (·.account.balance), w)
  | .getNonce a => .ok (w.read a (0 : ℕ) (·.account.nonce), w)
  | .getCode a => .ok (w.read a [] (·.account.code), w)
  | .isContractAvailable a =>
    .ok (w.read a false fun o => !o.account.code.isEmpty && !o.selfDestructed, w)
  | .isProgramAccount a => .ok (w.read a false (·.account.isProgramAccount), w)
  | .isValidCodeFormat a => .ok (w.read a false fun o =>
      o.account.isProgramAccount && Params.CodeFormat.validate o.account.codeInfo.getCodeFormat, w)
  | .getVmVersion a => .ok (w.read a (Params.vmVersion0, false) fun o =>
      if o.account.isProgramAccount then (o.account.codeInfo.getVmVersion, true)
      else (Params.vmVersion0, false), w)
  | .getKey a => .ok (w.read a .legacy (·.account.getKey), w)
  | .hasSelfDestructed a => .ok (w.read a false (·.selfDestructed), w)
  | .getState a key => .ok (w.read a (0 : Hash) (·.storage key), w)
  | .getCommittedState a key => .ok (w.read a (0 : Hash) (·.committed key), w)
  | .getRefund => .ok (w.refund, w)
  | .getTxHash => .ok (w.thash, w)
  | .getTransientState a key => .ok (w.transientStorage a key, w)
  | .addressInAccessList a => .ok (w.accessList.containsAddress a, w)
  | .slotInAccessList a slot => (w.accessList.contains a slot).map (·, w)
  | .addBalance a amount => .ok ((), w.addBalance a amount)
  | .subBalance a amount => .ok ((), w.subBalance a amount)
  | .setBalance a amount => .ok ((), w.setBalance a amount)
  | .incNonce a => .ok ((), w.incNonce a)
  | .setNonce a nonce => .ok ((), w.setNonce a nonce)
  | .setCode a code => .ok (w.setCode a code)
  | .setState a key value => .ok ((), w.setState a key value)
  | .setTransientState a key value => .ok ((), w.setTransientState a key value)
  | .createEOA a humanReadable key => .ok ((), w.createAccountWith a (.newEOA humanReadable key))
  | .createSmartContractAccountWithKey a humanReadable key format r =>
    .ok ((), w.createAccountWith a
      (.newSmartContract 1 humanReadable key (Params.newCodeInfoWithRules format r)))
  | .createSmartContractAccount a format r =>
    .ok ((), w.createAccountWith a
      (.newSmartContract 1 false .fail (Params.newCodeInfoWithRules format r)))
  | .selfDestruct a => .ok ((), w.selfDestruct a)
  | .selfDestruct6780 a => .ok ((), w.selfDestruct6780 a)
  | .addLog log => .ok ((), w.addLog log)
  | .addRefund gas => .ok ((), w.addRefund gas)
  | .subRefund gas => (w.subRefund gas).map ((), ·)
  | .addPreimage hash preimage => .ok ((), w.addPreimage hash preimage)
  | .addAddressToAccessList a => .ok ((), w.addAddressToAccessList a)
  | .addSlotToAccessList a slot => (w.addSlotToAccessList a slot).map ((), ·)

def handler : Handler DbCall.Ret Crash World where
  Mark := World
  call c w := w.answer c
  mark w := (w, w)
  revert w₀ w := .ok (w₀.withForced w.forced)

end World

namespace StateDB

variable {s s' : StateDB} {w w' : World}

/-- The database keeps its invariant and shows a world. -/
def Shows (s : StateDB) (w : World) : Prop := s.Wf ∧ s.view = w

def AnswersAs {c : DbCall} (s : StateDB) :
    Except Crash (c.Ret × StateDB) → Except Crash (c.Ret × World) → Prop
  | .ok (r, s'), .ok (r', w') => r = r' ∧ s.Step s' ∧ s'.view = w'
  | .error e, .error e' => e = e'
  | _, _ => False

theorem Wf.answersRead (h : s.Wf) {α : Type} {a : Address} {d : α} {f : StateObject → α}
    {g : Obj → α} (hfg : ∀ o, g o.view = f o) :
    (s.readObject a d f).1 = s.view.read a d g ∧ s.Step (s.readObject a d f).2 ∧
      (s.readObject a d f).2.view = s.view := by
  obtain ⟨s', heq, hstep, hview⟩ := h.readObject a d f g hfg
  rw [heq]
  exact ⟨rfl, hstep, hview⟩

theorem read_isSome (w : World) (a : Address) : w.read a false (fun _ => true) = (w.find a).isSome := by
  unfold World.read
  cases w.find a <;> rfl

/-- Every answer of the database is that of the world it shows. -/
theorem Wf.answers (h : s.Wf) (c : DbCall) : s.AnswersAs (s.answer c) (s.view.answer c) := by
  cases c with
  | exist a =>
    have := h.answersRead (a := a) (d := false) (f := fun _ => true) (g := fun _ => true)
      fun _ => rfl
    rw [read_isSome] at this
    exact this
  | isEmpty a => exact h.answersRead fun o => o.account.rootless_empty
  | getBalance | getNonce | hasSelfDestructed => exact h.answersRead fun _ => rfl
  | getCode a => exact h.answersRead fun o => o.account.rootless_code
  | isContractAvailable | isValidCodeFormat | getVmVersion => exact h.answersRead fun o => by simp
  | isProgramAccount a => exact h.answersRead fun o => o.account.rootless_isProgramAccount
  | getKey a => exact h.answersRead fun o => o.account.rootless_getKey
  | getState a key =>
    obtain ⟨s', heq, hstep, hview⟩ := h.getState a key
    simp only [StateDB.answer, heq]
    exact ⟨rfl, hstep, hview⟩
  | getCommittedState a key =>
    obtain ⟨s', heq, hstep, hview⟩ := h.getCommittedState a key
    simp only [StateDB.answer, heq]
    exact ⟨rfl, hstep, hview⟩
  | getRefund | getTxHash | getTransientState | addressInAccessList => exact ⟨rfl, .refl h, rfl⟩
  | slotInAccessList a slot =>
    obtain ⟨b, heq⟩ := h.accessList.contains_eq_ok a slot
    simp only [StateDB.answer, World.answer, show s.view.accessList = s.accessList from rfl, heq]
    exact ⟨rfl, .refl h, rfl⟩
  | addBalance a amount => exact ⟨rfl, h.addBalance a amount⟩
  | subBalance a amount => exact ⟨rfl, h.subBalance a amount⟩
  | setBalance a amount => exact ⟨rfl, h.setBalance a amount⟩
  | incNonce a => exact ⟨rfl, h.incNonce a⟩
  | setNonce a nonce => exact ⟨rfl, h.setNonce a nonce⟩
  | setCode a code => exact h.setCode a code
  | setState a key value => exact ⟨rfl, h.setState a key value⟩
  | setTransientState a key value => exact ⟨rfl, h.setTransientState a key value⟩
  | createEOA a hr key | createSmartContractAccount a hr key =>
    exact ⟨rfl, h.createAccountWith rfl a⟩
  | createSmartContractAccountWithKey a hr key format r => exact ⟨rfl, h.createAccountWith rfl a⟩
  | selfDestruct a => exact ⟨rfl, h.selfDestruct a⟩
  | selfDestruct6780 a => exact ⟨rfl, h.selfDestruct6780 a⟩
  | addLog log => exact ⟨rfl, h.addLog log⟩
  | addRefund gas => exact ⟨rfl, h.addRefund gas⟩
  | subRefund gas =>
    rcases Nat.lt_or_ge s.refund gas with hlt | hge
    · have hdb : s.subRefund gas = .error .refundCounterBelowZero := if_pos hlt
      have hw : s.view.subRefund gas = .error .refundCounterBelowZero := if_pos hlt
      simp only [StateDB.answer, World.answer, hdb, hw]
      exact rfl
    · obtain ⟨s', w, hdb, hw, hsim⟩ := h.subRefund hge
      simp only [StateDB.answer, World.answer, hdb, hw]
      exact ⟨rfl, hsim⟩
  | addPreimage hash preimage => exact ⟨rfl, h.addPreimage hash preimage⟩
  | addAddressToAccessList a => exact ⟨rfl, h.addAddressToAccessList a⟩
  | addSlotToAccessList a slot =>
    obtain ⟨s', w, hdb, hw, hsim⟩ := h.addSlotToAccessList a slot
    simp only [StateDB.answer, World.answer, hdb, hw]
    exact ⟨rfl, hsim⟩

/-- The database simulates the world. -/
theorem simulation : Simulation handler World.handler Shows Extends where
  refl h := .refl h.1
  trans := .trans
  call_ok {s w c r w'} h hc := by
    obtain ⟨hwf, rfl⟩ := h
    have hans := hwf.answers c
    rw [show s.view.answer c = _ from hc] at hans
    cases hs : s.answer c with
    | error e => rw [hs] at hans; exact hans.elim
    | ok x =>
      rw [hs] at hans
      obtain ⟨rfl, hstep, hview⟩ := hans
      exact ⟨x.2, hs, ⟨hstep.wf, hview⟩, hstep.extends⟩
  call_error {s w c e} h hc := by
    obtain ⟨hwf, rfl⟩ := h
    have hans := hwf.answers c
    rw [show s.view.answer c = _ from hc] at hans
    cases hs : s.answer c with
    | error e' =>
      rw [hs] at hans
      exact hs.trans (congrArg Except.error hans)
    | ok x => rw [hs] at hans; exact hans.elim
  mark h := ⟨h.1.snapshot, h.2⟩
  close keep {s w s' w'} h hstep h' := by
    obtain ⟨hwf, rfl⟩ := h
    obtain ⟨hwf', rfl⟩ := h'
    cases keep with
    | true => exact ⟨s', s'.view, rfl, rfl, ⟨hwf', rfl⟩, hstep.of_snapshot⟩
    | false =>
      obtain ⟨s'', heq, hstep', -, -, hview⟩ := hstep.revertToSnapshot
      exact ⟨s'', _, heq, rfl, ⟨hstep'.wf, hview⟩, hstep'⟩

variable {t : StateDB}

theorem run_alike {α : Type} {p : DbProg α} {x : α} (hs : s.Wf) (ht : t.Wf)
    (hview : t.view = s.view) (hrun : handler.run p s = .ok (x, s')) :
    s.Extends s' ∧ ∃ t', handler.run p t = .ok (x, t') ∧ t.Extends t' ∧ t'.view = s'.view := by
  have hsim := simulation.run p (⟨hs, rfl⟩ : s.Shows s.view)
  have hsim' := simulation.run p (⟨ht, hview⟩ : t.Shows s.view)
  cases hw : World.handler.run p s.view with
  | error e =>
    rw [hw] at hsim
    cases hsim.symm.trans hrun
  | ok y =>
    rw [hw] at hsim hsim'
    obtain ⟨s₁, heq, ⟨-, hv⟩, hstep⟩ := hsim
    obtain ⟨t', heq', ⟨-, hv'⟩, hstep'⟩ := hsim'
    obtain ⟨rfl, rfl⟩ := Prod.mk.inj (Except.ok.inj (heq.symm.trans hrun))
    exact ⟨hstep, t', heq', hstep', hv'.trans hv.symm⟩

end StateDB

/-! ## Preparing a transaction -/

abbrev AccessTuples := List (Address × List Hash)

def addAddresses : List Address → DbProg Unit
  | [] => .pure ()
  | a :: as => .call (.addAddressToAccessList a) fun _ => addAddresses as

def addSlots (a : Address) : List Hash → DbProg Unit
  | [] => .pure ()
  | slot :: slots => .call (.addSlotToAccessList a slot) fun _ => addSlots a slots

def addTuples : AccessTuples → DbProg Unit
  | [] => .pure ()
  | (a, slots) :: els => .call (.addAddressToAccessList a) fun _ => do
    addSlots a slots
    addTuples els

/-- The addresses that `Prepare` lists under the rules of a block. -/
def preparedAddresses (r : Params.Rules) (sender feepayer coinbase : Address)
    (dst : Option Address) (precompiles : List Address) : List Address :=
  (if r.isKore then
    sender :: (if feepayer = 0 then [] else [feepayer]) ++ dst.toList ++ precompiles else []) ++
  (if r.isShanghai then [coinbase] else [])

def prepareAccess (r : Params.Rules) (sender feepayer coinbase : Address) (dst : Option Address)
    (precompiles : List Address) (list : AccessTuples) : DbProg Unit := do
  addAddresses (preparedAddresses r sender feepayer coinbase dst precompiles)
  addTuples (if r.isCancun then list else [])

def Records.clearAccess (r : Records) (rules : Params.Rules) : Records :=
  { r with accessList := if rules.isKore then .newAccessList else r.accessList }

def Records.clearTransient (r : Records) : Records :=
  { r with transientStorage := fun _ => emptyStorage }

namespace StateDB

def prepare (s : StateDB) (r : Params.Rules) (sender feepayer coinbase : Address)
    (dst : Option Address) (precompiles : List Address) (list : AccessTuples) :
    Except Crash StateDB := do
  let (_, s) ← handler.run (prepareAccess r sender feepayer coinbase dst precompiles list)
    { s with toRecords := s.toRecords.clearAccess r }
  return { s with toRecords := s.toRecords.clearTransient }

end StateDB

namespace StateDB

variable {s s' : StateDB}

/-- No entry of the journal is about the access list. -/
def Unlisted (s : StateDB) : Prop :=
  ∀ e ∈ s.journal.entries, ∀ al : AccessList, al.undo e = some al

theorem accessFits_of_unlisted {al : AccessList} (hal : al.Wf) {es : List (JournalEntry StateObject)}
    (hes : ∀ e ∈ es, ∀ al : AccessList, al.undo e = some al) : AccessFits al es := by
  induction es with
  | nil => exact hal
  | cons e es ih =>
    exact ⟨hal, al, hes e List.mem_cons_self al, ih fun e' he' => hes e' (List.mem_cons_of_mem e he')⟩

theorem Wf.withRecords (h : s.Wf) (r : Records) (hal : AccessFits r.accessList s.journal.entries) :
    ({ s with toRecords := r } : StateDB).Wf :=
  ⟨⟨h.objects, h.unloaded, h.kept_live, h.entries, h.dirties, h.dirties_live⟩, hal,
    h.revisions_sorted, h.revisions_lt⟩

theorem Wf.clearAccess (h : s.Wf) (hun : s.Unlisted) (r : Params.Rules) :
    ({ s with toRecords := s.toRecords.clearAccess r } : StateDB).Wf := by
  refine h.withRecords _ ?_
  show AccessFits (if r.isKore then .newAccessList else s.accessList) s.journal.entries
  split
  · exact accessFits_of_unlisted AccessList.newAccessList_wf hun
  · exact h.accessFits

end StateDB

end Kaia
