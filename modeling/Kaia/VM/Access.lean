import Kaia.Foundation.Folds
import Kaia.State.AccessList

/-! # The charge for a first access

The gas that is taken for an instruction, from Kore on. Gas functions look up addresses and slots in
the access list and add them; an instruction set is a table that later forks overwrite.
-/

namespace Kaia.VM

open Foundation

inductive OpCode
  | balance | extCodeSize | extCodeCopy | extCodeHash | call | callCode | delegateCall | staticCall
  | selfdestruct | sload | sstore

inductive GasError
  | outOfGas
  | gasUintOverflow
  | reentrancySentry
  | impossibleCase
  | crash (c : Crash)

def coldAccountAccessCost : ℕ := 2600

def coldSloadCost : ℕ := 2100

def warmStorageReadCost : ℕ := 100

def sstoreSetGas : ℕ := 20000

def sstoreResetGas : ℕ := 5000

def memoryFee (words : ℕ) : ℕ := words * 3 + words * words / 512

/-- The memory of a frame, which has been paid for. -/
structure Memory where
  len : ℕ
  lastGasCost : ℕ
  paid : ∀ words, len < words * 32 → lastGasCost ≤ memoryFee words

/-- What gas functions read besides the access list. The stack is read from its top. -/
structure Frame where
  address : Address
  back : ℕ → Hash
  memory : Memory
  memorySize : ℕ
  empty : Address → Bool
  balance : ℤ
  hasSelfDestructed : Bool
  getState : Hash → Hash
  getCommittedState : Hash → Hash

def Frame.target (f : Frame) (i : ℕ) : Address := (f.back i).setWidth 160

structure Accesses where
  accessList : AccessList
  refund : ℕ

def Accesses.addAddress (s : Accesses) (a : Address) : Accesses :=
  { s with accessList := (s.accessList.addAddress a).1 }

/-- The second argument is the gas that the contract has left. -/
abbrev GasFunc := Frame → ℕ → Accesses → Except GasError (ℕ × Accesses)

def safeAdd (x y : ℕ) : Except GasError ℕ :=
  if x + y < 2 ^ 64 then .ok (x + y) else .error .gasUintOverflow

def toWordSize (size : ℕ) : ℕ := if 2 ^ 64 - 32 < size then 2 ^ 59 else (size + 31) / 32

def memoryGasCost (mem : Memory) (newMemSize : ℕ) : Except GasError ℕ :=
  if newMemSize = 0 then .ok 0
  else if 0x1FFFFFFFE0 < newMemSize then .error .gasUintOverflow
  else
    let words := toWordSize newMemSize
    if mem.len < words * 32 then .ok (memoryFee words - mem.lastGasCost) else .ok 0

def gasExtCodeCopy (f : Frame) : Except GasError ℕ := do
  let gas ← memoryGasCost f.memory f.memorySize
  if 2 ^ 64 ≤ (f.back 3).toNat then .error .gasUintOverflow
  else safeAdd gas (toWordSize (f.back 3).toNat * 3)

def callGas (availableGas base : ℕ) (callCost : Hash) : ℕ :=
  let availableGas := sub64 availableGas base
  let gas := availableGas - availableGas / 64
  if callCost.toNat < 2 ^ 64 ∧ callCost.toNat ≤ gas then callCost.toNat else gas

/-- The four kinds of calls differ in what is charged for the value. -/
def gasCallWith (valueGas : Frame → ℕ) (f : Frame) (gas : ℕ) : Except GasError ℕ := do
  let memoryGas ← memoryGasCost f.memory f.memorySize
  let base ← safeAdd (valueGas f) memoryGas
  safeAdd base (callGas gas base (f.back 0))

def gasCall : Frame → ℕ → Except GasError ℕ := gasCallWith fun f =>
  if f.back 2 = 0 then 0 else (if f.empty (f.target 1) then 25000 else 0) + 9000

def gasCallCode : Frame → ℕ → Except GasError ℕ := gasCallWith fun f =>
  if f.back 2 = 0 then 0 else 9000

def gasDelegateCall : Frame → ℕ → Except GasError ℕ := gasCallWith fun _ => 0

def gasStaticCall : Frame → ℕ → Except GasError ℕ := gasCallWith fun _ => 0

def makeCallVariantGasCallEIP2929 (oldCalculator : Frame → ℕ → Except GasError ℕ) : GasFunc :=
  fun f gas s =>
    let coldCost := coldAccountAccessCost - warmStorageReadCost
    if s.accessList.containsAddress (f.target 1) then (oldCalculator f gas).map (·, s)
    else if gas < coldCost then .error .outOfGas
    else (oldCalculator f (gas - coldCost)).map fun old =>
      (uint64 (old + coldCost), s.addAddress (f.target 1))

def gasEip2929AccountCheck : GasFunc := fun f _ s =>
  if s.accessList.containsAddress (f.target 0) then .ok (0, s)
  else .ok (coldAccountAccessCost - warmStorageReadCost, s.addAddress (f.target 0))

def gasExtCodeCopyEIP2929 : GasFunc := fun f _ s => do
  let gas ← gasExtCodeCopy f
  if s.accessList.containsAddress (f.target 0) then .ok (gas, s)
  else
    let gas ← safeAdd gas (coldAccountAccessCost - warmStorageReadCost)
    .ok (gas, s.addAddress (f.target 0))

def makeSelfdestructGasFn (refundsEnabled : Bool) : GasFunc := fun f _ s =>
  let createGas := if f.empty (f.target 0) ∧ f.balance ≠ 0 then 25000 else 0
  let s :=
    if refundsEnabled ∧ ¬ f.hasSelfDestructed then { s with refund := s.refund + 24000 } else s
  if s.accessList.containsAddress (f.target 0) then .ok (createGas, s)
  else .ok (coldAccountAccessCost + createGas, s.addAddress (f.target 0))

def gasSLoadEIP2929 : GasFunc := fun f _ s => do
  let (_, slotPresent) ← (s.accessList.contains f.address (f.back 0)).mapError .crash
  if slotPresent then .ok (warmStorageReadCost, s)
  else
    let (al, _) ← (s.accessList.addSlot f.address (f.back 0)).mapError .crash
    .ok (coldSloadCost, { s with accessList := al })

def sstoreGas (original current value : Hash) : ℕ :=
  if current = value then warmStorageReadCost
  else if original = current then
    if original = 0 then sstoreSetGas else sstoreResetGas - coldSloadCost
  else warmStorageReadCost

def sstoreRefund (clearingRefund : ℕ) (original current value : Hash) (refund : ℕ) :
    Except GasError ℕ :=
  if current = value then .ok refund
  else if original = current then
    .ok (if original ≠ 0 ∧ value = 0 then refund + clearingRefund else refund)
  else do
    let refund ←
      if original ≠ 0 ∧ current = 0 then
        if refund < clearingRefund then .error (.crash .refundCounterBelowZero)
        else .ok (refund - clearingRefund)
      else if original ≠ 0 ∧ value = 0 then .ok (refund + clearingRefund)
      else .ok refund
    .ok (if original ≠ value then refund
      else if original = 0 then refund + (sstoreSetGas - warmStorageReadCost)
      else refund + (sstoreResetGas - coldSloadCost - warmStorageReadCost))

def makeGasSStoreFunc (clearingRefund : ℕ) : GasFunc := fun f gas s => do
  if gas ≤ 2300 then .error .reentrancySentry
  else
    let (addrPresent, slotPresent) ←
      (s.accessList.contains f.address (f.back 0)).mapError .crash
    let (cost, al) ←
      if slotPresent then .ok (0, s.accessList)
      else do
        let (al, _) ← (s.accessList.addSlot f.address (f.back 0)).mapError .crash
        if addrPresent then .ok (coldSloadCost, al) else .error .impossibleCase
    let original := f.getCommittedState (f.back 0)
    let current := f.getState (f.back 0)
    let refund ← sstoreRefund clearingRefund original current (f.back 1) s.refund
    .ok (cost + sstoreGas original current (f.back 1), ⟨al, refund⟩)

/-! ## Instruction sets -/

structure Operation where
  constantGas : ℕ
  dynamicGas : Option GasFunc

abbrev JumpTable := OpCode → Operation

def enable2929 (jt : JumpTable) : JumpTable
  | .sstore => { jt .sstore with dynamicGas := some (makeGasSStoreFunc 15000) }
  | .sload => ⟨0, some gasSLoadEIP2929⟩
  | .extCodeCopy => ⟨warmStorageReadCost, some gasExtCodeCopyEIP2929⟩
  | .extCodeSize | .extCodeHash | .balance => ⟨warmStorageReadCost, some gasEip2929AccountCheck⟩
  | .call => ⟨warmStorageReadCost, some (makeCallVariantGasCallEIP2929 gasCall)⟩
  | .callCode => ⟨warmStorageReadCost, some (makeCallVariantGasCallEIP2929 gasCallCode)⟩
  | .staticCall => ⟨warmStorageReadCost, some (makeCallVariantGasCallEIP2929 gasStaticCall)⟩
  | .delegateCall => ⟨warmStorageReadCost, some (makeCallVariantGasCallEIP2929 gasDelegateCall)⟩
  | .selfdestruct => ⟨5000, some (makeSelfdestructGasFn true)⟩

def enable3529 (jt : JumpTable) : JumpTable
  | .sstore => { jt .sstore with dynamicGas := some (makeGasSStoreFunc 4800) }
  | .selfdestruct => { jt .selfdestruct with dynamicGas := some (makeSelfdestructGasFn false) }
  | op => jt op

def enable6780 (jt : JumpTable) : JumpTable
  | .selfdestruct => ⟨5000, some (makeSelfdestructGasFn false)⟩
  | op => jt op

def enable1052 (jt : JumpTable) : JumpTable
  | .extCodeHash => ⟨400, none⟩
  | op => jt op

inductive Fork
  | kore | shanghai | cancun

/-- The instruction sets on top of London; Shanghai changes none of those here. -/
def instructionSet (london : JumpTable) : Fork → JumpTable
  | .kore | .shanghai => enable3529 (enable2929 london)
  | .cancun => enable1052 (enable6780 (enable3529 (enable2929 london)))

/-- What the interpreter takes for an instruction. -/
def charge (operation : Operation) : GasFunc := fun f gas s =>
  if gas < operation.constantGas then .error .outOfGas
  else
    match operation.dynamicGas with
    | none => .ok (operation.constantGas, s)
    | some dynamicGas => do
      let (cost, s) ← dynamicGas f (gas - operation.constantGas) s
      if gas - operation.constantGas < cost then .error .outOfGas
      else .ok (operation.constantGas + cost, s)

/-! ## First accesses -/

/-- What the instruction accesses is in the list. -/
def Listed (f : Frame) (al : AccessList) : OpCode → Prop
  | .sload | .sstore => ∃ b, al.contains f.address (f.back 0) = .ok (b, true)
  | .call | .callCode | .delegateCall | .staticCall => al.containsAddress (f.target 1)
  | _ => al.containsAddress (f.target 0)

def coldCost : OpCode → ℕ
  | .sload | .sstore => coldSloadCost
  | _ => coldAccountAccessCost

/-- A first access that is paid for costs what it must and is listed; a second costs less. -/
def FirstAccess (op : OpCode) (least : ℕ) (gasFunc : GasFunc) : Prop :=
  ∀ f gas s cost s', gas < 2 ^ 64 → ¬ Listed f s.accessList op →
    gasFunc f gas s = .ok (cost, s') → cost ≤ gas →
    least ≤ cost ∧ Listed f s'.accessList op ∧ ∀ al, Listed f al op →
      ∃ cost' s'', gasFunc f gas { s with accessList := al } = .ok (cost', s'') ∧ cost' < cost

theorem firstAccess_charge {op : OpCode} {constantGas least : ℕ} {dynamicGas : GasFunc}
    (h : FirstAccess op (least - constantGas) dynamicGas) :
    FirstAccess op least (charge ⟨constantGas, some dynamicGas⟩) := by
  intro f gas s cost s' hlt hcold hcharge _
  unfold charge at hcharge ⊢
  split at hcharge
  · cases hcharge
  · next hconst =>
    obtain ⟨⟨cost, t⟩, hdyn, hrest⟩ := bind_eq_ok.mp hcharge
    dsimp only at hrest hdyn hconst
    split at hrest
    · cases hrest
    · next hgas =>
      cases hrest
      obtain ⟨hle, hlisted, hwarm⟩ := h f _ s cost s' (by omega) hcold hdyn (by omega)
      refine ⟨by omega, hlisted, fun al hal => ?_⟩
      obtain ⟨cost', s'', hdyn', hless⟩ := hwarm al hal
      have hpays : ¬ gas - constantGas < cost' := by omega
      refine ⟨constantGas + cost', s'', ?_, by omega⟩
      rw [if_neg hconst]
      exact bind_eq_ok.mpr ⟨_, hdyn', if_neg hpays⟩

theorem containsAddress_addAddress (s : Accesses) (a : Address) :
    (s.addAddress a).accessList.containsAddress a := by
  unfold Accesses.addAddress AccessList.addAddress AccessList.containsAddress
  split
  · next h => simp [h]
  · simp

theorem accountCheck_first :
    FirstAccess .balance (coldAccountAccessCost - warmStorageReadCost) gasEip2929AccountCheck := by
  intro f gas s cost s' _ hcold hdyn _
  unfold Listed at hcold
  rw [gasEip2929AccountCheck, if_neg hcold] at hdyn
  cases hdyn
  exact ⟨le_rfl, containsAddress_addAddress s _, fun al hal => ⟨0, _, if_pos hal, by decide⟩⟩

theorem safeAdd_eq_ok {x y z : ℕ} (h : safeAdd x y = .ok z) : z = x + y := by
  unfold safeAdd at h
  split at h
  · exact (Except.ok.inj h).symm
  · cases h

theorem extCodeCopy_first :
    FirstAccess .extCodeCopy (coldAccountAccessCost - warmStorageReadCost)
      gasExtCodeCopyEIP2929 := by
  intro f gas s cost s' _ hcold hdyn _
  unfold Listed at hcold
  obtain ⟨copy, hcopy, hdyn⟩ := bind_eq_ok.mp hdyn
  rw [if_neg hcold] at hdyn
  obtain ⟨total, htotal, hdyn⟩ := bind_eq_ok.mp hdyn
  cases hdyn
  obtain rfl := safeAdd_eq_ok htotal
  refine ⟨Nat.le_add_left _ _, containsAddress_addAddress s _, fun al hal => ?_⟩
  exact ⟨copy, _, bind_eq_ok.mpr ⟨copy, hcopy, if_pos hal⟩, Nat.lt_add_of_pos_right (by decide)⟩

theorem selfdestruct_first :
    FirstAccess .selfdestruct (coldAccountAccessCost - 5000) (makeSelfdestructGasFn false) := by
  intro f gas s cost s' _ hcold hdyn _
  unfold Listed at hcold
  simp only [makeSelfdestructGasFn, Bool.false_eq_true, false_and, if_false] at hdyn ⊢
  rw [if_neg hcold] at hdyn
  cases hdyn
  refine ⟨(Nat.sub_le _ _).trans (Nat.le_add_right _ _), containsAddress_addAddress s _, ?_⟩
  exact fun al hal => ⟨_, _, if_pos hal, Nat.lt_add_of_pos_left (by decide)⟩

theorem memoryGasCost_lt {mem : Memory} {newMemSize gas : ℕ}
    (h : memoryGasCost mem newMemSize = .ok gas) : gas < 2 ^ 56 := by
  unfold memoryGasCost at h
  split at h
  · cases h
    decide
  split at h
  · cases h
  dsimp only at h
  split at h
  · cases h
    have hwords : toWordSize newMemSize ≤ 2 ^ 32 := by
      unfold toWordSize
      split <;> omega
    have hsquare := Nat.mul_le_mul hwords hwords
    unfold memoryFee
    omega
  · cases h
    decide

theorem callGas_le (gas base : ℕ) (request : Hash) :
    callGas gas base request ≤ 2 ^ 64 - 2 ^ 58 := by
  have hlt : sub64 gas base < 2 ^ 64 := Nat.mod_lt _ (by decide)
  unfold callGas
  dsimp only
  split <;> omega

theorem callGas_lt {gas base : ℕ} (hgas : gas < 2 ^ 64) (hbase : base ≤ gas - 2500)
    (henough : 2500 ≤ gas) (request : Hash) :
    callGas gas base request < callGas (gas - 2500) base request + 2500 := by
  have hsub : ∀ n, n ≤ gas → base ≤ n → sub64 n base = n - base := by
    intro n hn hle
    unfold sub64 uint64
    omega
  unfold callGas
  rw [hsub gas le_rfl (by omega), hsub (gas - 2500) (by omega) hbase]
  dsimp only
  split <;> split <;> omega

theorem callVariant_first {valueGas : Frame → ℕ} (hvalue : ∀ f, valueGas f ≤ 34000) :
    FirstAccess .call (coldAccountAccessCost - warmStorageReadCost)
      (makeCallVariantGasCallEIP2929 (gasCallWith valueGas)) := by
  intro f gas s cost s' hgas hcold hdyn hcost
  unfold Listed at hcold
  unfold makeCallVariantGasCallEIP2929 at hdyn ⊢
  dsimp only at hdyn ⊢
  rw [if_neg hcold] at hdyn
  rw [show coldAccountAccessCost - warmStorageReadCost = 2500 from rfl] at hdyn ⊢
  split at hdyn
  · cases hdyn
  · next henough =>
    obtain ⟨old, hold, heq⟩ := map_eq_ok.mp hdyn
    obtain ⟨rfl, rfl⟩ := Prod.mk.inj heq
    obtain ⟨memoryGas, hmemory, hold⟩ := bind_eq_ok.mp hold
    obtain ⟨base, hbase, hold⟩ := bind_eq_ok.mp hold
    have hm := memoryGasCost_lt hmemory
    have hv := hvalue f
    have hsum := safeAdd_eq_ok hbase
    have htotal := safeAdd_eq_ok hold
    -- the sum with the cold cost does not wrap around
    have hpassed := callGas_le (gas - 2500) base (f.back 0)
    rw [uint64, Nat.mod_eq_of_lt (by omega)] at hcost ⊢
    have hless := @callGas_lt gas base hgas (by omega) (by omega) (f.back 0)
    have hwarm : gasCallWith valueGas f gas = .ok (base + callGas gas base (f.back 0)) :=
      bind_eq_ok.mpr ⟨_, hmemory, bind_eq_ok.mpr ⟨_, hbase, if_pos (by omega)⟩⟩
    refine ⟨by omega, containsAddress_addAddress s _, fun al hal => ?_⟩
    exact ⟨_, _, (if_pos hal).trans (map_eq_ok.mpr ⟨_, hwarm, rfl⟩), by omega⟩

theorem contains_of_addSlot {al al' : AccessList} {a : Address} {slot : Hash} {mods : Bool × Bool}
    (h : al.addSlot a slot = .ok (al', mods)) : al'.contains a slot = .ok (true, true) := by
  unfold AccessList.addSlot at h
  split at h
  · next idx ha =>
    split at h
    · cases h
    · next slotmap hslots =>
      split at h
      · next hmem =>
        cases h
        simp [AccessList.contains, ha, hslots, hmem]
      · cases h
        have hlt := (List.getElem?_eq_some_iff.mp hslots).1
        simp [AccessList.contains, ha, hlt]
  · cases h
    simp [AccessList.contains]

theorem sload_first : FirstAccess .sload coldSloadCost gasSLoadEIP2929 := by
  intro f gas s cost s' _ hcold hdyn _
  obtain ⟨⟨b, present⟩, hcontains, hdyn⟩ := bind_eq_ok.mp hdyn
  rw [mapError_eq_ok] at hcontains
  cases present with
  | true => exact absurd ⟨b, hcontains⟩ hcold
  | false =>
    obtain ⟨⟨al, mods⟩, hadd, hdyn⟩ := bind_eq_ok.mp hdyn
    cases hdyn
    refine ⟨le_rfl, ⟨true, contains_of_addSlot (mapError_eq_ok.mp hadd)⟩, ?_⟩
    rintro al ⟨b, hal⟩
    exact ⟨_, _, bind_eq_ok.mpr ⟨_, mapError_eq_ok.mpr hal, rfl⟩, by decide⟩

theorem sstore_first {least : ℕ} (hleast : least ≤ coldSloadCost) (clearingRefund : ℕ) :
    FirstAccess .sstore least (makeGasSStoreFunc clearingRefund) := by
  intro f gas s cost s' _ hcold hdyn _
  unfold makeGasSStoreFunc at hdyn ⊢
  split at hdyn
  · cases hdyn
  · next hsentry =>
    obtain ⟨⟨b, present⟩, hcontains, hdyn⟩ := bind_eq_ok.mp hdyn
    rw [mapError_eq_ok] at hcontains
    cases present with
    | true => exact absurd ⟨b, hcontains⟩ hcold
    | false =>
      obtain ⟨⟨al, mods⟩, hadd, hdyn⟩ := bind_eq_ok.mp hdyn
      cases b with
      | false => cases hdyn
      | true =>
        obtain ⟨_, ⟨⟩, hdyn⟩ := bind_eq_ok.mp hdyn
        obtain ⟨refund, hrefund, hdyn⟩ := bind_eq_ok.mp hdyn
        cases hdyn
        have hlisted := contains_of_addSlot (mapError_eq_ok.mp hadd)
        refine ⟨hleast.trans (Nat.le_add_right _ _), ⟨true, hlisted⟩, ?_⟩
        rintro al ⟨b, hal⟩
        rw [if_neg hsentry]
        refine ⟨_, _, bind_eq_ok.mpr ⟨_, mapError_eq_ok.mpr hal, bind_eq_ok.mpr ⟨_, rfl,
          bind_eq_ok.mpr ⟨_, hrefund, rfl⟩⟩⟩, ?_⟩
        exact Nat.add_lt_add_right (by decide) _

/-- A frame of an empty contract. -/
def plainFrame : Frame :=
  ⟨0, fun _ => 0, ⟨0, 0, fun _ _ => Nat.zero_le _⟩, 0, fun _ => true, 0, false, fun _ => 0,
    fun _ => 0⟩

/-- First accesses are charged as such, but for `EXTCODEHASH` from Cancun on. -/
theorem firstAccess_iff (london : JumpTable) (fork : Fork) (op : OpCode) :
    FirstAccess op (coldCost op) (charge (instructionSet london fork op)) ↔
      ¬ (fork = .cancun ∧ op = .extCodeHash) := by
  constructor
  · rintro h ⟨rfl, rfl⟩
    have hleast := (h plainFrame 400 ⟨.newAccessList, 0⟩ 400 _ (by decide) Bool.false_ne_true rfl
      le_rfl).1
    exact absurd hleast (by decide)
  · intro h
    have hkore : ∀ op, FirstAccess op (coldCost op) (charge (instructionSet london .kore op)) := by
      intro op
      cases op with
      | balance | extCodeSize | extCodeHash => exact firstAccess_charge accountCheck_first
      | extCodeCopy => exact firstAccess_charge extCodeCopy_first
      | call | callCode =>
        refine firstAccess_charge (callVariant_first fun f => ?_)
        repeat' split
        all_goals decide
      | delegateCall | staticCall =>
        exact firstAccess_charge (callVariant_first fun f => Nat.zero_le _)
      | selfdestruct => exact firstAccess_charge selfdestruct_first
      | sload => exact firstAccess_charge sload_first
      | sstore => exact firstAccess_charge (sstore_first (Nat.sub_le _ _) _)
    cases fork with
    | kore | shanghai => exact hkore op
    | cancun =>
      cases op with
      | extCodeHash => exact absurd ⟨rfl, rfl⟩ h
      | _ => exact hkore _

/-- The code hash of an account that is not listed, for less than a cold access. -/
theorem cold_extCodeHash_undercharged :
    let s : Accesses := ⟨.newAccessList, 0⟩
    ¬ Listed plainFrame s.accessList .extCodeHash ∧
      charge (instructionSet (fun _ => ⟨0, none⟩) .cancun .extCodeHash) plainFrame 1000 s =
        .ok (400, s) ∧ 400 < coldAccountAccessCost := by
  exact ⟨Bool.false_ne_true, rfl, by decide⟩

end Kaia.VM
