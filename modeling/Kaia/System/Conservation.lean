import Mathlib
import Kaia.State.Ledger
import Kaia.State.Mutators
import Kaia.System.Rebalance

/-! # What rebalancing does to the supply

What is taken from the accounts and given to them is accounted for by the burnt amount. A failing
rebalancing leaves every balance as it was. One failing read is overlooked.
-/

namespace Kaia.System

open Foundation List

variable {bal : Address → ℕ} {res : RebalanceResult} {orders : LoopOrders} {order : MapOrder Address ℕ}

variable {zeroed allocated : Balances} {books : Books Address} {a : Address} {b : ℕ}

theorem nodupKeys_clearing : ((order.visit zeroed.entries).map
    fun e => (⟨e.1, 0⟩ : Σ _ : Address, ℕ)).NodupKeys := by
  have hkeys := order.nodupKeys zeroed
  unfold List.NodupKeys keys at hkeys ⊢
  rwa [map_map]

theorem cleared_balance_of_mem (h : a ∈ zeroed) : (cleared order zeroed books).balance a = 0 := by
  refine settle_balance_of_mem nodupKeys_clearing ?_
  have hkey : a ∈ (order.visit zeroed.entries).map (·.1) := MapOrder.mem_keys.mpr h
  obtain ⟨e, he, rfl⟩ := mem_map.mp hkey
  exact mem_map_of_mem (f := fun e : (Σ _ : Address, ℕ) => (⟨e.1, 0⟩ : Σ _ : Address, ℕ)) he

theorem cleared_balance_of_notMem (h : a ∉ zeroed) :
    (cleared order zeroed books).balance a = books.balance a := by
  refine settle_balance_of_notMem ?_
  rw [map_map]
  exact fun hmem => h (MapOrder.mem_keys.mp hmem)

theorem total_cleared (h : ∀ a b, zeroed.lookup a = some b → b = bal a) :
    total (cleared order zeroed ⟨bal, 0⟩).balance = total bal - (sumValues zeroed : ℕ) := by
  -- what clearing burns is what was noted
  have hburnt : (cleared order zeroed ⟨bal, 0⟩).burnt = (sumValues zeroed : ℕ) := by
    rw [cleared, settle_burnt nodupKeys_clearing, map_map, zero_add, ← order.sum_visit]
    refine congrArg (fun l => ((sum l : ℕ) : ℤ)) (map_congr_left ?_)
    rintro ⟨a, b⟩ he
    exact (h a b (MapOrder.mem_visit.mp he)).symm
  have htotal := total_settle ⟨bal, 0⟩
    ((order.visit zeroed.entries).map fun e => (⟨e.1, 0⟩ : Σ _ : Address, ℕ))
  have hzero : (((order.visit zeroed.entries).map fun e => (⟨e.1, 0⟩ : Σ _ : Address, ℕ)).map
      (·.2)).sum = 0 := by
    rw [map_map]
    refine sum_eq_zero ?_
    rintro _ hx
    obtain ⟨e, -, rfl⟩ := mem_map.mp hx
    rfl
  rw [hzero] at htotal
  unfold cleared at hburnt ⊢
  rw [hburnt] at htotal
  simpa using eq_sub_of_add_eq htotal

theorem total_executed (h : ∀ a b, res.before.zeroed.lookup a = some b → b = bal a) :
    total (executed orders res bal).balance = total bal - ((executed orders res bal).burnt - res.burnt +
      (totalBalance orders.zeroedTotal res.before.zeroed -
        totalBalance orders.allocatedTotal res.after.allocated)) := by
  have hdist := total_settle
    ⟨(cleared orders.clearing res.before.zeroed ⟨bal, 0⟩).balance, res.burnt⟩
    (orders.distribution.visit res.after.allocated.entries)
  rw [total_cleared h, MapOrder.sum_visit] at hdist
  rw [totalBalance, totalBalance, MapOrder.sum_visit, MapOrder.sum_visit]
  unfold executed distributed
  linarith

theorem executed_burnt_nonneg (h : 0 ≤ res.burnt) : 0 ≤ (executed orders res bal).burnt := by
  unfold executed distributed
  rw [settle_burnt (orders.distribution.nodupKeys _)]
  exact add_nonneg h (Int.natCast_nonneg _)

theorem executed_of_allocated (h : res.after.allocated.lookup a = some b) :
    (executed orders res bal).balance a = b :=
  settle_balance_of_mem (orders.distribution.nodupKeys _) (MapOrder.mem_visit.mpr h)

theorem executed_of_zeroed (ha : a ∉ res.after.allocated) (hz : a ∈ res.before.zeroed) :
    (executed orders res bal).balance a = 0 := by
  refine (settle_balance_of_notMem fun hmem => ha (MapOrder.mem_keys.mp hmem)).trans ?_
  exact cleared_balance_of_mem hz

theorem executed_of_other (ha : a ∉ res.after.allocated) (hz : a ∉ res.before.zeroed) :
    (executed orders res bal).balance a = bal a := by
  refine (settle_balance_of_notMem fun hmem => ha (MapOrder.mem_keys.mp hmem)).trans ?_
  exact cleared_balance_of_notMem hz

/-! ## The result that is read -/

variable {zs : List Address} {as : List (Address × ℕ)}

theorem foldl_addZeroed_zeroed : (zs.foldl (.addZeroed bal) res).before.zeroed.lookup a =
    if a ∈ zs then some (bal a) else res.before.zeroed.lookup a := by
  induction zs generalizing res with
  | nil => rfl
  | cons z zs ih =>
    rw [foldl_cons, ih]
    by_cases hz : a = z
    · subst hz
      simp [RebalanceResult.addZeroed]
    · simp [RebalanceResult.addZeroed, hz]

theorem foldl_addZeroed_allocated :
    (zs.foldl (.addZeroed bal) res).after.allocated = res.after.allocated ∧
      (zs.foldl (.addZeroed bal) res).burnt = res.burnt := by
  induction zs generalizing res with
  | nil => exact ⟨rfl, rfl⟩
  | cons z zs ih => exact ih

theorem foldl_addAllocated_zeroed :
    (as.foldl (.addAllocated bal) res).before.zeroed = res.before.zeroed ∧
      (as.foldl (.addAllocated bal) res).burnt = res.burnt := by
  induction as generalizing res with
  | nil => exact ⟨rfl, rfl⟩
  | cons z zs ih => exact ih

theorem foldl_addAllocated_allocated : (as.foldl (.addAllocated bal) res).after.allocated.lookup a =
    (as.reverse.lookup a).or (res.after.allocated.lookup a) := by
  induction as generalizing res with
  | nil => rfl
  | cons x as ih =>
    rw [foldl_cons, ih, reverse_cons, lookup_append, Option.or_assoc]
    congr 1
    obtain ⟨y, amount⟩ := x
    by_cases hy : a = y
    · subst hy
      simp [RebalanceResult.addAllocated, lookup]
    · simp [RebalanceResult.addAllocated, lookup, hy, beq_false_of_ne hy]

def readResult (bal : Address → ℕ) (zs : List Address) (as : List (Address × ℕ)) : RebalanceResult :=
  as.foldl (.addAllocated bal) (zs.foldl (.addZeroed bal) newRebalanceReceipt)

theorem readResult_zeroed :
    (readResult bal zs as).before.zeroed.lookup a = if a ∈ zs then some (bal a) else none := by
  unfold readResult
  rw [foldl_addAllocated_zeroed.1, foldl_addZeroed_zeroed]
  rfl

theorem readResult_allocated :
    (readResult bal zs as).after.allocated.lookup a = as.reverse.lookup a := by
  unfold readResult
  rw [foldl_addAllocated_allocated, foldl_addZeroed_allocated.1]
  exact Option.or_none

theorem readResult_burnt : (readResult bal zs as).burnt = 0 := by
  unfold readResult
  rw [foldl_addAllocated_zeroed.2, foldl_addZeroed_allocated.2]
  rfl

variable {σ ε : Type} {L : Ledger σ Address} {setup : RebalanceSetup L ε} {number : ℕ}
  {caller : RebalanceCaller L ε}

/-- The balances and the burnt amount of a rebalancing that has read the given accounts. -/
def Executed (L : Ledger σ Address) (orders : LoopOrders) (res : RebalanceResult)
    (bal : Address → ℕ) (r : Rebalancing σ) : Prop :=
  L.getBalance r.state = (executed orders res bal).balance ∧
    r.result.burnt = (executed orders res bal).burnt +
      (totalBalance orders.zeroedTotal res.before.zeroed - totalBalance orders.allocatedTotal res.after.allocated)

/-- What the contract of the fork block lists, as far as it is read. -/
structure Reads (setup : RebalanceSetup L ε) (number : ℕ) (caller : RebalanceCaller L ε)
    (zs : List Address) (as : List (Address × ℕ)) : Prop where
  called : setup.caller number = .ok caller
  zeroed : caller.zeroedList = .ok zs
  allocated : caller.allocatedList = .ok as

/-- The checks accept what is read. -/
def Accepted (setup : RebalanceSetup L ε) (orders : LoopOrders) (number : ℕ) (bal : Address → ℕ)
    (caller : RebalanceCaller L ε) (zs : List Address) (as : List (Address × ℕ)) : Prop :=
  Approved caller number ∧ Enough orders (setup.isKIP103 number) (readResult bal zs as)

theorem rebalanceTreasury_meets :
    Meets (At L newRebalanceReceipt bal) (rebalanceTreasury setup orders number)
      (fun _ r => ∃ caller zs as, Reads setup number caller zs as ∧
        Accepted setup orders number bal caller zs as ∧
        Executed L orders (readResult bal zs as) bal r)
      (fun _ r => (∀ caller zs as, Reads setup number caller zs as →
        ¬ Accepted setup orders number bal caller zs as) ∧ Has L bal r) := by
  unfold rebalanceTreasury
  cases hcaller : setup.caller number with
  | error e =>
    refine Meets.throw fun r hr => ⟨?_, hr.2⟩
    rintro caller zs as ⟨h, -, -⟩
    cases hcaller.symm.trans h
  | ok caller =>
    -- a list that cannot be read is not the list of any reading
    refine ((fillZeroed_meets caller).mono (fun _ => id) (fun _ _ => id) ?_).bind
      fun _ => Meets.of_forall fun r ⟨zs, hzs, hr⟩ =>
        ((fillAllocated_meets caller).mono (fun s hs => hs ▸ hr) (fun _ _ => id) ?_).bind
      fun _ => Meets.of_forall fun r ⟨as, has, hr⟩ =>
        ((validate_meets caller).mono (fun s hs => hs ▸ hr) (fun _ _ => id) ?_).bind
      fun _ => Meets.of_forall fun r ⟨hvalid, hr⟩ =>
        execute_meets.mono (fun s hs => hs ▸ hr) ?_ fun _ _ => id
    · rintro _ r ⟨⟨e, he⟩, hbal⟩
      refine ⟨?_, hbal⟩
      rintro _ zs as ⟨h, hzs, -⟩
      cases hcaller.symm.trans h
      cases hzs.symm.trans he
    · rintro _ r ⟨⟨e, he⟩, hbal⟩
      refine ⟨?_, hbal⟩
      rintro _ zs as ⟨h, -, has⟩
      cases hcaller.symm.trans h
      cases has.symm.trans he
    · rintro _ r ⟨hinvalid, hbal⟩
      refine ⟨?_, hbal⟩
      rintro _ zs' as' ⟨h, hzs', has'⟩
      cases hcaller.symm.trans h
      cases hzs.symm.trans hzs'
      cases has.symm.trans has'
      exact hinvalid
    · rintro _ s ⟨hbal, hburnt, -⟩
      exact ⟨caller, zs, as, ⟨hcaller, hzs, has⟩, hvalid, hbal, hburnt⟩

/-- Balances before and after; the last amount of an allocated account counts. -/
structure Rebalanced (isKIP103 : Bool) (zs : List Address) (as : List (Address × ℕ))
    (bal bal' : Address → ℕ) (burnt : ℤ) : Prop where
  supply : total bal' = total bal - burnt
  zeroed : ∀ a ∈ zs, a ∉ as.map Prod.fst → bal' a = 0
  allocated : ∀ a ∈ as.map Prod.fst, as.reverse.lookup a = some (bal' a)
  others : ∀ a, a ∉ zs → a ∉ as.map Prod.fst → bal' a = bal a
  burnt_nonneg : isKIP103 = true → 0 ≤ burnt

variable {r : Rebalancing σ}

theorem mem_readResult_zeroed : a ∈ (readResult bal zs as).before.zeroed ↔ a ∈ zs := by
  rw [← AList.lookup_isSome, readResult_zeroed]
  by_cases ha : a ∈ zs <;> simp [ha]

theorem lookup_reverse_eq_none : as.reverse.lookup a = none ↔ a ∉ as.map Prod.fst := by
  rw [lookup_eq_none_iff]
  simp only [mem_reverse, mem_map, bne_iff_ne, ne_eq, not_exists, not_and]
  exact forall₂_congr fun x _ => ⟨fun h e => h e.symm, fun h e => h e.symm⟩

theorem mem_readResult_allocated :
    a ∈ (readResult bal zs as).after.allocated ↔ a ∈ as.map Prod.fst := by
  rw [← AList.lookup_isSome, readResult_allocated, Option.isSome_iff_ne_none, ne_eq,
    lookup_reverse_eq_none, not_not]

theorem Executed.rebalanced {isKIP103 : Bool}
    (henough : Enough orders isKIP103 (readResult bal zs as))
    (h : Executed L orders (readResult bal zs as) bal r) :
    Rebalanced isKIP103 zs as bal (L.getBalance r.state) r.result.burnt := by
  obtain ⟨hbal, hburnt⟩ := h
  have hnoted : ∀ a b, (readResult bal zs as).before.zeroed.lookup a = some b → b = bal a := by
    intro a b hb
    rw [readResult_zeroed] at hb
    exact (Option.some.inj (Option.ite_none_right_eq_some.mp hb).2).symm
  constructor
  · rw [hbal, hburnt, total_executed hnoted, readResult_burnt, sub_zero]
  · intro a hz ha
    rw [hbal]
    exact executed_of_zeroed (mem_readResult_allocated.not.mpr ha) (mem_readResult_zeroed.mpr hz)
  · intro a ha
    obtain ⟨b, hb⟩ := Option.ne_none_iff_exists'.mp (lookup_reverse_eq_none.not_left.mpr ha)
    rw [hb, hbal, executed_of_allocated (readResult_allocated.trans hb)]
  · intro a hz ha
    rw [hbal]
    exact executed_of_other (mem_readResult_allocated.not.mpr ha) (mem_readResult_zeroed.not.mpr hz)
  · intro h103
    have hle := henough h103
    have hnonneg : 0 ≤ (executed orders (readResult bal zs as) bal).burnt :=
      executed_burnt_nonneg readResult_burnt.ge
    omega

theorem rebalanceTreasury_conserves (L : Ledger σ Address) (setup : RebalanceSetup L ε)
    (orders : LoopOrders) (number : ℕ) (s : σ) (r : Rebalancing σ)
    (h : (rebalanceTreasury setup orders number).run ⟨newRebalanceReceipt, s⟩ = .ok () r) :
    ∃ caller zs as, setup.caller number = .ok caller ∧ caller.zeroedList = .ok zs ∧
      caller.allocatedList = .ok as ∧
      Rebalanced (setup.isKIP103 number) zs as (L.getBalance s) (L.getBalance r.state)
        r.result.burnt := by
  obtain ⟨caller, zs, as, ⟨hcaller, hzs, has⟩, hvalid, hexec⟩ :=
    rebalanceTreasury_meets.of_ok ⟨rfl, rfl⟩ h
  exact ⟨caller, zs, as, hcaller, hzs, has, hexec.rebalanced hvalid.2⟩

/-! ## Failing reads -/

theorem mapM_eq_error {α : Type} {f : ℕ → Except ε α} {l : List ℕ} :
    (∃ e, l.mapM f = .error e) ↔ ∃ i ∈ l, ∃ e, f i = .error e := by
  induction l with
  | nil => simp [pure, Except.pure]
  | cons i l ih =>
    rw [mapM_cons]
    simp only [mem_cons, exists_eq_or_imp, ← ih]
    cases hi : f i with
    | error e => simp [bind, Except.bind]
    | ok a => cases l.mapM f <;> simp [bind, Except.bind, pure, Except.pure]

/-- Some read of the contract fails. -/
def ReadFails (caller : RebalanceCaller L ε) : Prop :=
  (∃ e, caller.getZeroedCount = .error e) ∨
  (∃ count, caller.getZeroedCount = .ok count ∧
    ∃ i ∈ List.range (loopCount count), ∃ e, caller.zeroeds i = .error e) ∨
  (∃ e, caller.getAllocatedCount = .error e) ∨
  (∃ count, caller.getAllocatedCount = .ok count ∧
    ∃ i ∈ List.range (loopCount count), ∃ e, caller.allocateds i = .error e) ∨
  (∃ e, caller.rebalanceBlockNumber = .error e) ∨
  (∃ e, caller.status = .error e) ∨
  ∃ e, caller.checkZeroedsApproved = .error e

/-- The reads fail for no other reason than the number of allocated accounts. -/
def OnlyAllocatedCountFails (caller : RebalanceCaller L ε) (number : ℕ) : Prop :=
  (∃ e, caller.getAllocatedCount = .error e) ∧ (∃ zs, caller.zeroedList = .ok zs) ∧
    Approved caller number

theorem zeroedList_eq_error : (∃ e, caller.zeroedList = .error e) ↔
    (∃ e, caller.getZeroedCount = .error e) ∨ ∃ count, caller.getZeroedCount = .ok count ∧
      ∃ i ∈ List.range (loopCount count), ∃ e, caller.zeroeds i = .error e := by
  unfold RebalanceCaller.zeroedList
  cases caller.getZeroedCount with
  | error e => simp
  | ok count =>
    simp only [mapM_eq_error, reduceCtorEq, exists_false, false_or, Except.ok.injEq, exists_eq_left']

theorem allocatedList_eq_error : (∃ e, caller.allocatedList = .error e) ↔
    ∃ count, caller.getAllocatedCount = .ok count ∧
      ∃ i ∈ List.range (loopCount count), ∃ e, caller.allocateds i = .error e := by
  unfold RebalanceCaller.allocatedList
  cases caller.getAllocatedCount with
  | error e => simp
  | ok count => simp only [mapM_eq_error, Except.ok.injEq, exists_eq_left']

theorem ReadFails.cases (h : ReadFails caller) : (∃ e, caller.zeroedList = .error e) ∨
    (∃ e, caller.allocatedList = .error e) ∨ (∃ e, caller.getAllocatedCount = .error e) ∨
    ¬ Approved caller number := by
  rcases h with h | h | h | h | ⟨e, h⟩ | ⟨e, h⟩ | ⟨e, h⟩
  · exact .inl (zeroedList_eq_error.mpr (.inl h))
  · exact .inl (zeroedList_eq_error.mpr (.inr h))
  · exact .inr (.inr (.inl h))
  · exact .inr (.inl (allocatedList_eq_error.mpr h))
  all_goals refine .inr (.inr (.inr fun happroved => ?_))
  · cases h.symm.trans happroved.blockNumber
  · cases h.symm.trans happroved.status
  · cases h.symm.trans happroved.approved

theorem OnlyAllocatedCountFails.succeeds (h : OnlyAllocatedCountFails caller number)
    (hcaller : setup.caller number = .ok caller) (orders : LoopOrders) (s : σ) :
    ∃ r, (rebalanceTreasury setup orders number).run ⟨newRebalanceReceipt, s⟩ = .ok () r := by
  obtain ⟨⟨e, hcount⟩, ⟨zs, hzs⟩, happroved⟩ := h
  have has : caller.allocatedList = .ok [] := by
    unfold RebalanceCaller.allocatedList
    rw [hcount]
  have henough : Enough orders (setup.isKIP103 number) (readResult (L.getBalance s) zs []) := by
    intro _
    have hempty : (readResult (L.getBalance s) zs []).after.allocated = ∅ :=
      foldl_addZeroed_allocated.1
    rw [hempty, totalBalance, MapOrder.sum_visit]
    exact Nat.zero_le _
  cases hrun : (rebalanceTreasury setup orders number).run ⟨newRebalanceReceipt, s⟩ with
  | ok a r => exact ⟨r, rfl⟩
  | error e r =>
    have hinvalid := rebalanceTreasury_meets.of_error ⟨rfl, rfl⟩ hrun
    exact absurd ⟨happroved, henough⟩ (hinvalid.1 caller zs [] ⟨hcaller, hzs, has⟩)

theorem failed_read_keeps_balances_iff (L : Ledger σ Address) (setup : RebalanceSetup L ε)
    (orders : LoopOrders) (number : ℕ) (s : σ) :
    (∀ caller, setup.caller number = .ok caller → ReadFails caller →
      ∃ e r, (rebalanceTreasury setup orders number).run ⟨newRebalanceReceipt, s⟩ = .error e r ∧
        L.getBalance r.state = L.getBalance s) ↔
    ∀ caller, setup.caller number = .ok caller → ¬ OnlyAllocatedCountFails caller number := by
  constructor
  · intro h caller hcaller honly
    obtain ⟨r, hr⟩ := honly.succeeds hcaller orders s
    obtain ⟨e, r', hr', -⟩ := h caller hcaller (.inr (.inr (.inl honly.1)))
    cases hr.symm.trans hr'
  · intro h caller hcaller hfails
    cases hrun : (rebalanceTreasury setup orders number).run ⟨newRebalanceReceipt, s⟩ with
    | ok a r =>
      -- a rebalancing that succeeds has read all but the number of allocated accounts
      obtain ⟨caller', zs, as, ⟨hcaller', hzs, has⟩, hvalid, -⟩ :=
        rebalanceTreasury_meets.of_ok ⟨rfl, rfl⟩ hrun
      obtain rfl := Except.ok.inj (hcaller.symm.trans hcaller')
      rcases hfails.cases with ⟨e, he⟩ | ⟨e, he⟩ | hcount | hnot
      · cases hzs.symm.trans he
      · cases has.symm.trans he
      · exact absurd ⟨hcount, ⟨zs, hzs⟩, hvalid.1⟩ (h caller hcaller)
      · exact absurd hvalid.1 hnot
    | error e r => exact ⟨e, r, rfl, (rebalanceTreasury_meets.of_error ⟨rfl, rfl⟩ hrun).2⟩

/-! ## A treasury -/

def plainOrders : LoopOrders where
  zeroedTotal := .plain _ _
  allocatedTotal := .plain _ _
  clearing := .plain _ _
  distribution := .plain _ _

/-- A contract for block ten: one of two zeroed accounts is allocated too. -/
def treasuryContract {σ : Type} (L : Ledger σ Address) (allocatedCount : Except String ℕ) :
    RebalanceCaller L String where
  rebalanceBlockNumber := .ok 10
  status := .ok 2
  getZeroedCount := .ok 2
  zeroeds i := .ok (if i = 0 then 1 else 2)
  getAllocatedCount := allocatedCount
  allocateds i := .ok (if i = 0 then (2, 5) else (3, 7))
  checkZeroedsApproved := .ok ()
  touch := id
  getBalance_touch := fun _ => rfl

def treasurySetup {σ : Type} (L : Ledger σ Address) (allocatedCount : Except String ℕ) :
    RebalanceSetup L String where
  kip103CompatibleBlock := none
  kip160CompatibleBlock := some 10
  newTreasuryRebalanceV2Caller := .ok (treasuryContract L allocatedCount)
  newKip103ContractCaller := .error ""

/-- The same contract, for the earlier fork. -/
def kip103Setup {σ : Type} (L : Ledger σ Address) : RebalanceSetup L String where
  kip103CompatibleBlock := some 10
  kip160CompatibleBlock := none
  newTreasuryRebalanceV2Caller := .error ""
  newKip103ContractCaller := .ok (treasuryContract L (.ok 2))

/-- Both zeroed accounts have nine. -/
def fundedState : {s : StateDB // s.Solvent} :=
  StateDB.ledger.setBalance (StateDB.ledger.setBalance
    ⟨StateDB.new (fun _ => none) false, (StateDB.Reached.new _ _).wf, fun _ => le_rfl⟩ 1 9) 2 9

theorem rebalanceTreasury_conserves_funded : ∃ r,
    (rebalanceTreasury (kip103Setup StateDB.ledger) plainOrders 10).run
      ⟨newRebalanceReceipt, fundedState⟩ = .ok () r ∧
    [1, 2, 3].map (StateDB.ledger.getBalance r.state) = [0, 5, 7] ∧ r.result.burnt = 6 ∧
    ∃ caller zs as, (kip103Setup StateDB.ledger).caller 10 = .ok caller ∧
      caller.zeroedList = .ok zs ∧ caller.allocatedList = .ok as ∧
      Rebalanced ((kip103Setup StateDB.ledger).isKIP103 10) zs as
        (StateDB.ledger.getBalance fundedState) (StateDB.ledger.getBalance r.state)
        r.result.burnt :=
  ⟨_, rfl, rfl, rfl, rebalanceTreasury_conserves _ _ plainOrders 10 fundedState _ rfl⟩

def plainLedger : Ledger (Address → ℕ) Address := ⟨id, Function.update, fun _ _ _ => rfl⟩

theorem unread_count_burns : ∃ caller r,
    (treasurySetup plainLedger (.error "timeout")).caller 10 = .ok caller ∧ ReadFails caller ∧
    (rebalanceTreasury (treasurySetup plainLedger (.error "timeout")) plainOrders 10).run
      ⟨newRebalanceReceipt, fun _ => 9⟩ = .ok () r ∧
    plainLedger.getBalance r.state 1 = 0 ∧ r.result.burnt = 18 :=
  ⟨_, _, rfl, .inr (.inr (.inl ⟨_, rfl⟩)), rfl, rfl, rfl⟩

end Kaia.System
