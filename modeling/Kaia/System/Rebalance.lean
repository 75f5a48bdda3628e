import Mathlib
import Kaia.Foundation.Effects
import Kaia.Foundation.Ledger
import Kaia.Foundation.Maps
import Kaia.Istanbul.Types

/-! # Treasury rebalancing

On the fork blocks of KIP-103 and KIP-160 the accounts that a contract lists as zeroed are cleared,
and the allocated ones get their amounts. Loops over Go maps have orders of their own.
-/

namespace Kaia.System

open Foundation Meets

inductive RebalanceError (ε : Type)
  | notRebalanceBlock
  | newCaller (e : ε)
  | read (e : ε)
  | incorrectBlock
  | badStatus
  | notEnoughBalance
  deriving DecidableEq

abbrev Balances := AList fun _ : Address => ℕ

structure RebalanceBalances where
  zeroed : Balances
  allocated : Balances

structure RebalanceResult where
  before : RebalanceBalances
  after : RebalanceBalances
  burnt : ℤ
  success : Bool

def newRebalanceReceipt : RebalanceResult := ⟨⟨∅, ∅⟩, ⟨∅, ∅⟩, 0, false⟩

/-- The orders of the four loops over maps. -/
structure LoopOrders where
  zeroedTotal : MapOrder Address ℕ
  allocatedTotal : MapOrder Address ℕ
  clearing : MapOrder Address ℕ
  distribution : MapOrder Address ℕ

/-- The answers of the rebalancing contract. KIP-103 runs it on the state; balances are kept. -/
structure RebalanceCaller {σ : Type} (L : Ledger σ Address) (ε : Type) where
  rebalanceBlockNumber : Except ε ℕ
  status : Except ε ℕ
  getZeroedCount : Except ε ℕ
  zeroeds : ℕ → Except ε Address
  getAllocatedCount : Except ε ℕ
  allocateds : ℕ → Except ε (Address × ℕ)
  checkZeroedsApproved : Except ε Unit
  touch : σ → σ
  getBalance_touch : ∀ s, L.getBalance (touch s) = L.getBalance s

/-- The result that is filled in and the state that is under process. -/
structure Rebalancing (σ : Type) where
  result : RebalanceResult
  state : σ

def loopCount (count : ℕ) : ℕ := (int64 count).toNat

def isForkBlock (fork : Option ℕ) (num : ℕ) : Bool := fork = some num

variable {σ ε : Type} {L : Ledger σ Address}

abbrev RebalanceM (σ ε : Type) := EStateM (RebalanceError ε) (Rebalancing σ)

def RebalanceResult.addZeroed (balance : Address → ℕ) (result : RebalanceResult) (ret : Address) :
    RebalanceResult :=
  { result with
    before.zeroed := result.before.zeroed.insert ret (balance ret)
    after.zeroed := result.after.zeroed.insert ret (balance ret) }

def RebalanceResult.addAllocated (balance : Address → ℕ) (result : RebalanceResult)
    (ret : Address × ℕ) : RebalanceResult :=
  { result with
    before.allocated := result.before.allocated.insert ret.1 (balance ret.1)
    after.allocated := result.after.allocated.insert ret.1 ret.2 }

namespace RebalanceCaller

variable (caller : RebalanceCaller L ε)

def call {α : Type} (answer : Except ε α) : RebalanceM σ ε (Except ε α) := do
  modify fun r => { r with state := caller.touch r.state }
  return answer

/-- Read the elements of a list of the contract and note each of them. -/
def readEach {α : Type} (read : ℕ → Except ε α)
    (note : (Address → ℕ) → RebalanceResult → α → RebalanceResult) (count : ℕ) :
    RebalanceM σ ε Unit :=
  (List.range (loopCount count)).forM fun i => do
    match ← caller.call (read i) with
    | .error e => throw (.read e)
    | .ok ret => modify fun r => { r with result := note (L.getBalance r.state) r.result ret }

def fillZeroed : RebalanceM σ ε Unit := do
  match ← caller.call caller.getZeroedCount with
  | .error e => throw (.read e)
  | .ok numRetired => caller.readEach caller.zeroeds .addZeroed numRetired

/-- A failed read of the number of allocated accounts is no error: nothing is allocated. -/
def fillAllocated : RebalanceM σ ε Unit := do
  match ← caller.call caller.getAllocatedCount with
  | .error _ => return ()
  | .ok numNewbie => caller.readEach caller.allocateds .addAllocated numNewbie

def expect {α : Type} (answer : Except ε α) (accept : α → Bool)
    (err : Except ε α → RebalanceError ε) : RebalanceM σ ε Unit := do
  match ← caller.call answer with
  | .error e => throw (err (.error e))
  | .ok a => if accept a then pure () else throw (err (.ok a))

def approvalError : Except ε Unit → RebalanceError ε
  | .error e => .read e
  | .ok () => .badStatus

end RebalanceCaller

def totalBalance (order : MapOrder Address ℕ) (m : Balances) : ℕ :=
  ((order.visit m.entries).map (·.2)).sum

def clearZeroed (L : Ledger σ Address) (order : MapOrder Address ℕ) : RebalanceM σ ε Unit := do
  let r ← get
  (order.visit r.result.before.zeroed.entries).forM fun entry =>
    modify fun r => { r with
      state := L.setBalance r.state entry.1 0
      result.after.zeroed := r.result.after.zeroed.insert entry.1 0 }

def distribute (L : Ledger σ Address) (order : MapOrder Address ℕ) : RebalanceM σ ε Unit := do
  let r ← get
  (order.visit r.result.after.allocated.entries).forM fun entry =>
    modify fun r => { r with
      result.burnt := r.result.burnt + L.getBalance r.state entry.1
      state := L.setBalance r.state entry.1 entry.2 }

def checkAmounts (orders : LoopOrders) (isKIP103 : Bool) : RebalanceM σ ε Unit := do
  let r ← get
  if isKIP103 ∧ totalBalance orders.zeroedTotal r.result.before.zeroed <
      totalBalance orders.allocatedTotal r.result.after.allocated then
    throw .notEnoughBalance
  else pure ()

def validate (caller : RebalanceCaller L ε) (orders : LoopOrders) (isKIP103 : Bool) (number : ℕ) :
    RebalanceM σ ε Unit := do
  caller.expect caller.rebalanceBlockNumber (· = number) fun _ => .incorrectBlock
  caller.expect caller.status (· = 2) fun _ => .badStatus
  caller.expect caller.checkZeroedsApproved (fun _ => true) RebalanceCaller.approvalError
  checkAmounts orders isKIP103

def execute (L : Ledger σ Address) (orders : LoopOrders) : RebalanceM σ ε Unit := do
  let r ← get
  let remainder : ℤ := totalBalance orders.zeroedTotal r.result.before.zeroed -
    totalBalance orders.allocatedTotal r.result.after.allocated
  clearZeroed L orders.clearing
  distribute L orders.distribution
  modify fun r => { r with
    result.burnt := r.result.burnt + remainder
    result.success := true }

/-- The fork blocks and the callers of the contracts of the two forks. -/
structure RebalanceSetup (L : Ledger σ Address) (ε : Type) where
  kip103CompatibleBlock : Option ℕ
  kip160CompatibleBlock : Option ℕ
  newTreasuryRebalanceV2Caller : Except ε (RebalanceCaller L ε)
  newKip103ContractCaller : Except ε (RebalanceCaller L ε)

namespace RebalanceSetup

variable (setup : RebalanceSetup L ε) (number : ℕ)

def isKIP103 : Bool := isForkBlock setup.kip103CompatibleBlock number

def isKIP160 : Bool := isForkBlock setup.kip160CompatibleBlock number

def caller : Except (RebalanceError ε) (RebalanceCaller L ε) :=
  if setup.isKIP160 number then setup.newTreasuryRebalanceV2Caller.mapError .newCaller
  else if setup.isKIP103 number then setup.newKip103ContractCaller.mapError .newCaller
  else .error .notRebalanceBlock

end RebalanceSetup

def rebalanceTreasury (setup : RebalanceSetup L ε) (orders : LoopOrders) (number : ℕ) :
    RebalanceM σ ε Unit := do
  match setup.caller number with
  | .error e => throw e
  | .ok caller =>
    caller.fillZeroed
    caller.fillAllocated
    validate caller orders (setup.isKIP103 number) number
    execute L orders

/-! ## What is read -/

variable {bal : Address → ℕ} {res : RebalanceResult}

namespace RebalanceCaller

variable (caller : RebalanceCaller L ε)

def zeroedList : Except ε (List Address) :=
  match caller.getZeroedCount with
  | .error e => .error e
  | .ok count => (List.range (loopCount count)).mapM caller.zeroeds

/-- The allocated accounts and their amounts. There are none if their number cannot be read. -/
def allocatedList : Except ε (List (Address × ℕ)) :=
  match caller.getAllocatedCount with
  | .error _ => .ok []
  | .ok count => (List.range (loopCount count)).mapM caller.allocateds

end RebalanceCaller

/-- The result is as given and so are the balances of the state. -/
def At (L : Ledger σ Address) (res : RebalanceResult) (bal : Address → ℕ) (r : Rebalancing σ) : Prop :=
  r.result = res ∧ L.getBalance r.state = bal

/-- The balances are as given. -/
def Has (L : Ledger σ Address) (bal : Address → ℕ) (r : Rebalancing σ) : Prop :=
  L.getBalance r.state = bal

variable {α : Type} (caller : RebalanceCaller L ε) {R : RebalanceError ε → Rebalancing σ → Prop}

theorem call_meets (answer : Except ε α) :
    Meets (At L res bal) (caller.call answer) (fun a r => a = answer ∧ At L res bal r) R := by
  refine (modify (Q := fun _ => At L res bal) ?_).bind fun _ => pure fun r h => ⟨rfl, h⟩
  rintro r ⟨hres, hbal⟩
  exact ⟨hres, (caller.getBalance_touch r.state).trans hbal⟩

theorem call_bind_meets {answer : Except ε α} {f : Except ε α → RebalanceM σ ε Unit}
    {Q : Unit → Rebalancing σ → Prop} (h : Meets (At L res bal) (f answer) Q R) :
    Meets (At L res bal) (caller.call answer >>= f) Q R := by
  refine (call_meets caller answer).bind fun a => of_forall fun r hr => ?_
  obtain ⟨rfl, hr⟩ := hr
  exact h.mono (fun s hs => hs ▸ hr) (fun _ _ => id) fun _ _ => id

theorem readEach_meets (read : ℕ → Except ε α)
    (note : (Address → ℕ) → RebalanceResult → α → RebalanceResult) (count : ℕ) :
    Meets (At L res bal) (caller.readEach read note count)
      (fun _ r => ∃ as, (List.range (loopCount count)).mapM read = .ok as ∧
        At L (as.foldl (note bal) res) bal r)
      (fun _ r => (∃ e, (List.range (loopCount count)).mapM read = .error e) ∧ Has L bal r) := by
  unfold RebalanceCaller.readEach
  generalize List.range (loopCount count) = indices
  refine forM (I := fun done r => ∃ as, done.mapM read = .ok as ∧
    At L (as.foldl (note bal) res) bal r) (fun r hr => ⟨[], rfl, hr⟩) (fun _ => id) ?_
  refine fun done i rest hsplit => of_forall fun r ⟨as, has, hr⟩ => ?_
  refine (call_bind_meets caller ?_).mono (fun s hs => hs ▸ hr) (fun _ _ => id) fun _ _ => id
  cases hread : read i with
  | error e =>
    refine throw ?_
    rintro s ⟨-, hbal⟩
    refine ⟨⟨e, ?_⟩, hbal⟩
    rw [hsplit, List.mapM_append, has, List.mapM_cons, hread]
    rfl
  | ok a =>
    refine modify ?_
    rintro s ⟨hres, hbal⟩
    refine ⟨as ++ [a], ?_, ?_, hbal⟩
    · rw [List.mapM_append, has, List.mapM_cons, hread]
      rfl
    · rw [List.foldl_append, hbal, hres]
      rfl

theorem fillZeroed_meets :
    Meets (At L res bal) caller.fillZeroed
      (fun _ r => ∃ zs, caller.zeroedList = .ok zs ∧ At L (zs.foldl (.addZeroed bal) res) bal r)
      (fun _ r => (∃ e, caller.zeroedList = .error e) ∧ Has L bal r) := by
  refine call_bind_meets caller ?_
  unfold RebalanceCaller.zeroedList
  cases caller.getZeroedCount with
  | error e => exact throw fun r hr => ⟨⟨e, rfl⟩, hr.2⟩
  | ok count =>
    exact readEach_meets caller caller.zeroeds RebalanceResult.addZeroed count

theorem fillAllocated_meets :
    Meets (At L res bal) caller.fillAllocated
      (fun _ r => ∃ as, caller.allocatedList = .ok as ∧
        At L (as.foldl (.addAllocated bal) res) bal r)
      (fun _ r => (∃ e, caller.allocatedList = .error e) ∧ Has L bal r) := by
  refine call_bind_meets caller ?_
  unfold RebalanceCaller.allocatedList
  cases caller.getAllocatedCount with
  | error e => exact pure fun r hr => ⟨[], rfl, hr⟩
  | ok count =>
    exact readEach_meets caller caller.allocateds RebalanceResult.addAllocated count

theorem expect_meets (answer : Except ε α) (accept : α → Bool)
    (err : Except ε α → RebalanceError ε) :
    Meets (At L res bal) (caller.expect answer accept err)
      (fun _ r => (∃ a, answer = .ok a ∧ accept a = true) ∧ At L res bal r)
      (fun _ r => (¬ ∃ a, answer = .ok a ∧ accept a = true) ∧ Has L bal r) := by
  refine call_bind_meets caller ?_
  cases answer with
  | error e =>
    refine throw fun r hr => ⟨?_, hr.2⟩
    rintro ⟨a, ⟨⟩, -⟩
  | ok a =>
    dsimp only
    split
    · next hacc => exact pure fun r hr => ⟨⟨a, rfl, hacc⟩, hr⟩
    · next hacc =>
      refine throw fun r hr => ⟨?_, hr.2⟩
      rintro ⟨b, ⟨⟩, hb⟩
      exact hacc hb

/-- What the checks ask of the contract. -/
structure Approved (caller : RebalanceCaller L ε) (number : ℕ) : Prop where
  blockNumber : caller.rebalanceBlockNumber = .ok number
  status : caller.status = .ok 2
  approved : caller.checkZeroedsApproved = .ok ()

/-- What the checks ask of the amounts. -/
def Enough (orders : LoopOrders) (isKIP103 : Bool) (res : RebalanceResult) : Prop :=
  isKIP103 = true → totalBalance orders.allocatedTotal res.after.allocated ≤
    totalBalance orders.zeroedTotal res.before.zeroed

variable {orders : LoopOrders} {isKIP103 : Bool} {number : ℕ}

theorem checkAmounts_meets :
    Meets (At L res bal) (checkAmounts orders isKIP103 : RebalanceM σ ε Unit)
      (fun _ r => Enough orders isKIP103 res ∧ At L res bal r)
      (fun _ r => ¬ Enough orders isKIP103 res ∧ Has L bal r) := by
  refine of_forall fun r hr => get_bind ?_
  rw [hr.1]
  split
  · next hless =>
    refine throw ?_
    rintro _ rfl
    exact ⟨fun h => absurd (h hless.1) (not_le.mpr hless.2), hr.2⟩
  · next hless =>
    refine pure ?_
    rintro _ rfl
    exact ⟨fun h => not_lt.mp fun hlt => hless ⟨h, hlt⟩, hr⟩

theorem validate_meets :
    Meets (At L res bal) (validate caller orders isKIP103 number)
      (fun _ r => (Approved caller number ∧ Enough orders isKIP103 res) ∧ At L res bal r)
      (fun _ r => ¬ (Approved caller number ∧ Enough orders isKIP103 res) ∧ Has L bal r) := by
  have hcond : ((∃ a, caller.rebalanceBlockNumber = .ok a ∧ decide (a = number) = true) ∧
      (∃ a, caller.status = .ok a ∧ decide (a = 2) = true) ∧
      (∃ a, caller.checkZeroedsApproved = .ok a ∧ true = true) ∧ Enough orders isKIP103 res) ↔
      Approved caller number ∧ Enough orders isKIP103 res := by
    simp only [decide_eq_true_eq, exists_eq_right]
    constructor
    · rintro ⟨hnum, hstatus, ⟨_, happroved, -⟩, henough⟩
      exact ⟨⟨hnum, hstatus, happroved⟩, henough⟩
    · rintro ⟨⟨hnum, hstatus, happroved⟩, henough⟩
      exact ⟨hnum, hstatus, ⟨(), happroved, trivial⟩, henough⟩
  have hall : Meets (At L res bal) (validate caller orders isKIP103 number) _ _ :=
    (expect_meets caller caller.rebalanceBlockNumber _ _).and_then
      ((expect_meets caller caller.status _ _).and_then
        ((expect_meets caller caller.checkZeroedsApproved _ _).and_then checkAmounts_meets))
  refine hall.mono (fun _ => id) ?_ ?_
  · exact fun _ _ h => ⟨hcond.mp h.1, h.2⟩
  · exact fun _ _ h => ⟨fun hvalid => h.1 (hcond.mpr hvalid), h.2⟩

variable {order : MapOrder Address ℕ}

def cleared (order : MapOrder Address ℕ) (zeroed : Balances) (books : Books Address) : Books Address :=
  ((order.visit zeroed.entries).map fun e => (⟨e.1, 0⟩ : Σ _ : Address, ℕ)).foldl .settle books

def distributed (order : MapOrder Address ℕ) (allocated : Balances) (books : Books Address) : Books Address :=
  (order.visit allocated.entries).foldl .settle books

/-- The books that a rebalancing keeps: its balances and what it has burnt. -/
def Keeps (L : Ledger σ Address) (books : Books Address) (r : Rebalancing σ) : Prop :=
  L.getBalance r.state = books.balance ∧ r.result.burnt = books.burnt

theorem clearZeroed_meets :
    Meets (At L res bal) (clearZeroed L order : RebalanceM σ ε Unit)
      (fun _ r => L.getBalance r.state = (cleared order res.before.zeroed ⟨bal, 0⟩).balance ∧
        r.result.after.allocated = res.after.allocated ∧ r.result.burnt = res.burnt) R := by
  refine of_forall fun r hr => get_bind ?_
  rw [hr.1]
  refine forM (I := fun done r =>
    L.getBalance r.state =
      ((done.map fun e => (⟨e.1, 0⟩ : Σ _ : Address, ℕ)).foldl .settle ⟨bal, 0⟩ : Books _).balance ∧
    r.result.after.allocated = res.after.allocated ∧ r.result.burnt = res.burnt) ?_ ?_ ?_
  · rintro _ rfl
    exact ⟨hr.2, congrArg (·.after.allocated) hr.1, congrArg (·.burnt) hr.1⟩
  · exact fun _ => id
  · rintro done entry rest -
    refine modify ?_
    rintro s ⟨hbal, hrest⟩
    refine ⟨?_, hrest⟩
    rw [L.getBalance_setBalance, hbal, List.map_append, List.foldl_append]
    rfl

theorem distribute_meets {allocated : Balances} {burnt : ℤ} :
    Meets (fun r => L.getBalance r.state = bal ∧ r.result.after.allocated = allocated ∧
        r.result.burnt = burnt) (distribute L order : RebalanceM σ ε Unit)
      (fun _ r => Keeps L (distributed order allocated ⟨bal, burnt⟩) r) R := by
  refine of_forall fun r hr => get_bind ?_
  rw [hr.2.1]
  refine forM (I := fun done r => Keeps L (done.foldl .settle ⟨bal, burnt⟩) r) ?_ ?_ ?_
  · rintro _ rfl
    exact ⟨hr.1, hr.2.2⟩
  · exact fun _ => id
  · rintro done entry rest -
    refine modify ?_
    rintro s ⟨hbal, hburnt⟩
    rw [List.foldl_append]
    constructor
    · rw [L.getBalance_setBalance, hbal]
      rfl
    · show s.result.burnt + L.getBalance s.state entry.1 = _
      rw [hbal, hburnt]
      rfl

def executed (orders : LoopOrders) (res : RebalanceResult) (bal : Address → ℕ) : Books Address :=
  distributed orders.distribution res.after.allocated
    ⟨(cleared orders.clearing res.before.zeroed ⟨bal, 0⟩).balance, res.burnt⟩

theorem execute_meets :
    Meets (At L res bal) (execute L orders : RebalanceM σ ε Unit)
      (fun _ r => L.getBalance r.state = (executed orders res bal).balance ∧
        r.result.burnt = (executed orders res bal).burnt +
          (totalBalance orders.zeroedTotal res.before.zeroed -
            totalBalance orders.allocatedTotal res.after.allocated) ∧ r.result.success = true) R := by
  refine of_forall fun r hr => get_bind ?_
  rw [hr.1]
  refine (clearZeroed_meets.mono (fun s hs => hs ▸ hr) (fun _ _ => id) fun _ _ => id).bind
    fun _ => distribute_meets.bind fun _ => modify ?_
  rintro s ⟨hbal, hburnt⟩
  refine ⟨hbal, ?_, rfl⟩
  rw [hburnt]
  rfl

end Kaia.System
