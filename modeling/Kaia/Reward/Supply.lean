import Kaia.Foundation.Cache
import Kaia.Foundation.Effects
import Kaia.Foundation.Runs
import Kaia.Reward.Overflow
import Kaia.Reward.Reported

/-! # The supply manager

Rewards are accumulated block by block, in a cache and at checkpoints in the database. The manager
catches up with the chain and goes on with every new head, which it takes to be further. The chain
that is canonical may change at any time.
-/

namespace Kaia.Reward

open Foundation Option

structure AccReward where
  minted : ℤ
  burntFee : ℤ
  deriving DecidableEq

def AccReward.add (acc : AccReward) (r : TotalReward) : AccReward :=
  ⟨acc.minted + r.minted, acc.burntFee + r.burntFee⟩

def AccReward.stored (acc : AccReward) : AccReward := ⟨|acc.minted|, |acc.burntFee|⟩

inductive SupplyErr
  | quit
  | panic (p : GoPanic)
  | report (e : ReportErr)
  deriving DecidableEq

/-- The balances of genesis in total, unless its state is missing, and the rewards of blocks. -/
structure SupplyChain where
  totalSupplyFromState : Option ℕ
  getTotalReward : ℕ → Except SupplyErr TotalReward
  nonneg : ∀ num r, getTotalReward num = .ok r → 0 ≤ r.minted ∧ 0 ≤ r.burntFee
  checkpointInterval : ℕ

/-- The reward of a canonical block as `accumulateReward` computes it. -/
def RewardChain.totalReward {lib : JsonLib} (chain : RewardChain lib)
    (block : ℕ → Option (Header × List Tx × List ℕ)) (num : ℕ) : Except SupplyErr TotalReward :=
  match block num with
  | none => .error (.panic .nilPointer)
  | some (header, txs, receipts) => do
    let pset ← (chain.accumulateParams (.ofNat num)).mapError fun e => .report (.engine e)
    let p ← (RewardChain.readRewardParams pset).mapError .report
    (getTotalReward header txs receipts (chain.rules num) p).mapError fun e => .report (.reward e)

/-- A chain of blocks whose rewards are conserved. -/
def RewardChain.supplyChain {lib : JsonLib} (chain : RewardChain lib)
    (block : ℕ → Option (Header × List Tx × List ℕ)) (totalSupplyFromState : Option ℕ)
    (checkpointInterval : ℕ)
    (hregular : ∀ num header txs receipts pset p, block num = some (header, txs, receipts) →
      chain.accumulateParams (.ofNat num) = .ok pset → pset.rewardParams = .ok p →
      RewardInput.Regular ⟨header, txs, receipts, chain.rules num, p, chain.getStakingInfo⟩) :
    SupplyChain where
  totalSupplyFromState
  getTotalReward := chain.totalReward block
  nonneg := by
    intro num r h
    unfold RewardChain.totalReward at h
    split at h
    · cases h
    · next header txs receipts hblock =>
      simp only [bind_eq_ok, mapError_eq_ok, RewardChain.readRewardParams] at h
      obtain ⟨pset, hpset, p, hp, hr⟩ := h
      exact (RewardInput.getTotalReward_spec
        (hregular num header txs receipts pset p hblock hpset hp)).of_ok hr
  checkpointInterval

/-- The database and the cache. The sums that are put there are noted. -/
structure SupplyStore (C : Cache ℕ AccReward) where
  accReward : ℕ → Option AccReward
  lastAccRewardBlockNumber : ℕ
  accRewardCache : C.State
  puts : List (ℕ × AccReward)

namespace SupplyStore

variable {C : Cache ℕ AccReward} (store : SupplyStore C)

variable (num : ℕ)

def cacheAdd (acc : AccReward) : SupplyStore C :=
  { store with accRewardCache := C.add store.accRewardCache num acc
               puts := store.puts ++ [(num, acc)] }

def writeAccReward (acc : AccReward) : SupplyStore C :=
  { store with accReward := Function.update store.accReward num (some acc.stored)
               puts := store.puts ++ [(num, acc.stored)] }

def writeLastAccRewardBlockNumber : SupplyStore C :=
  { store with lastAccRewardBlockNumber := num }

/-- A sum that is stored past the last number counts as deleted. -/
def getAccReward : Option AccReward × SupplyStore C :=
  match C.lookup store.accRewardCache num with
  | some acc => (some acc, { store with accRewardCache := C.get store.accRewardCache num })
  | none =>
    if store.lastAccRewardBlockNumber < num then (none, store)
    else
      match store.accReward num with
      | none => (none, store)
      | some acc => (some acc, store.cacheAdd num acc)

end SupplyStore

/-- What the goroutine does, with its last number and sum. -/
inductive SupplyPhase
  | stopped
  | catchup (lastNum : ℕ) (lastAccReward : AccReward)
  | listening (lastNum : ℕ) (lastAccReward : AccReward)

/-- The manager, and the chain that it reads. -/
structure SupplyManager (C : Cache ℕ AccReward) where
  chain : SupplyChain
  store : SupplyStore C
  phase : SupplyPhase

/-- The events of the manager; a signal to quit may be seen before any block. The canonical chain
grows, or changes after the head was set back. -/
inductive SupplyEvent
  | canonical (chain : SupplyChain)
  | start
  | currentBlock (headNum : ℕ) (quit : ℕ → Bool)
  | chainHead (headNum : ℕ) (quit : ℕ → Bool)
  | getAccReward (num : ℕ)
  | stop

namespace SupplyManager

variable {C : Cache ℕ AccReward} (chain : SupplyChain)

variable (store : SupplyStore C) (quit : ℕ → Bool)

/-- One round of the loop of `accumulateReward`. -/
def accumulateBlock (num : ℕ) : EStateM SupplyErr (SupplyStore C × AccReward) PUnit :=
  if quit num then throw .quit
  else
    match chain.getTotalReward num with
    | .error e => throw e
    | .ok blockTotal => do
      modify fun (store, acc) => (store.cacheAdd num (acc.add blockTotal), acc.add blockTotal)
      if chain.checkpointInterval = 0 then throw (.panic .divideByZero)
      else if num % chain.checkpointInterval = 0 then
        modify fun (store, acc) =>
          ((store.writeAccReward num acc).writeLastAccRewardBlockNumber num, acc)
      else pure ()

/-- The blocks after the first number up to the second. There are none if it is not larger. -/
def accumulateReward (fromNum toNum : ℕ) : EStateM SupplyErr (SupplyStore C × AccReward) PUnit :=
  (List.range' (fromNum + 1) (toNum - fromNum)).forM (accumulateBlock chain quit)

def follow (lastNum headNum : ℕ)
    (lastAccReward : AccReward) (next : ℕ → AccReward → SupplyPhase) : SupplyManager C :=
  match (accumulateReward chain quit lastNum headNum).run (store, lastAccReward) with
  | .error _ (store, _) => ⟨chain, store, .stopped⟩
  | .ok _ (store, acc) => ⟨chain, store, next headNum acc⟩

def softReset : SupplyStore C :=
  if 0 < store.lastAccRewardBlockNumber ∧ store.accReward store.lastAccRewardBlockNumber = none then
    store.writeLastAccRewardBlockNumber 0
  else store

def storeGenesis : Option (SupplyStore C) :=
  if store.lastAccRewardBlockNumber = 0 then
    chain.totalSupplyFromState.map fun supply : ℕ =>
      (store.writeAccReward 0 ⟨supply, 0⟩).writeLastAccRewardBlockNumber 0
  else some store

/-- The beginning of `catchup` in a new process. -/
def start : SupplyManager C :=
  let store := softReset { store with accRewardCache := C.empty }
  match storeGenesis chain store with
  | none => ⟨chain, store, .stopped⟩
  | some store =>
    match store.accReward store.lastAccRewardBlockNumber with
    | none => ⟨chain, store, .stopped⟩
    | some acc => ⟨chain, store, .catchup store.lastAccRewardBlockNumber acc⟩

/-- One event, with a fresh note of what it puts. Events that the manager does not wait for are not
taken. -/
def step (m : SupplyManager C) (event : SupplyEvent) : Option (SupplyManager C) :=
  let store := { m.store with puts := [] }
  match event, m.phase with
  | .canonical chain, phase => some ⟨chain, store, phase⟩
  | .start, _ => some (start m.chain store)
  | .currentBlock headNum quit, .catchup lastNum acc =>
    if lastNum < headNum then some (follow m.chain store quit lastNum headNum acc .catchup)
    else some ⟨m.chain, store, .listening lastNum acc⟩
  | .chainHead headNum quit, .listening lastNum acc =>
    some (follow m.chain store quit lastNum headNum acc .listening)
  | .getAccReward num, phase => some ⟨m.chain, (store.getAccReward num).2, phase⟩
  | .stop, _ => some ⟨m.chain, store, .stopped⟩
  | _, _ => none

def fresh (C : Cache ℕ AccReward) (chain : SupplyChain) : SupplyManager C :=
  ⟨chain, ⟨fun _ => none, 0, C.empty, []⟩, .stopped⟩

/-- The number from which the manager goes on, or would after a restart. -/
def lastNum (m : SupplyManager C) : ℕ :=
  match m.phase with
  | .stopped => m.store.lastAccRewardBlockNumber
  | .catchup lastNum _ => lastNum
  | .listening lastNum _ => lastNum

end SupplyManager

def SupplyChain.supplyAt (chain : SupplyChain) : ℕ → Option AccReward
  | 0 => chain.totalSupplyFromState.map fun supply : ℕ => ⟨supply, 0⟩
  | num + 1 => do
    let acc ← chain.supplyAt num
    let r ← (chain.getTotalReward (num + 1)).toOption
    some (acc.add r)

namespace SupplyManager

variable {C : Cache ℕ AccReward} {chain : SupplyChain} {m m' : SupplyManager C}
  {store : SupplyStore C} {acc : AccReward} {num : ℕ}

theorem supplyAt_stored (h : chain.supplyAt num = some acc) : acc.stored = acc := by
  suffices hnonneg : 0 ≤ acc.minted ∧ 0 ≤ acc.burntFee by
    rw [AccReward.stored, abs_of_nonneg hnonneg.1, abs_of_nonneg hnonneg.2]
  induction num generalizing acc with
  | zero =>
    obtain ⟨supply, -, rfl⟩ := map_eq_some_iff.mp h
    exact ⟨Int.natCast_nonneg supply, le_rfl⟩
  | succ num ih =>
    simp only [SupplyChain.supplyAt, bind_eq_bind, bind_eq_some_iff,
      some.injEq, toOption_eq_some] at h
    obtain ⟨acc', hacc', r, hr, rfl⟩ := h
    obtain ⟨hm, hb⟩ := ih hacc'
    obtain ⟨hrm, hrb⟩ := chain.nonneg _ r hr
    exact ⟨add_nonneg hm hrm, add_nonneg hb hrb⟩

/-- What was put for a block, and what is stored, is the supply at the block. Nothing is stored past
the last number. -/
structure Accurate (chain : SupplyChain) (store : SupplyStore C) : Prop where
  puts : ∀ p ∈ store.puts, chain.supplyAt p.1 = some p.2
  accReward : ∀ num acc, store.accReward num = some acc →
    num ≤ store.lastAccRewardBlockNumber ∧ chain.supplyAt num = some acc
  last : store.lastAccRewardBlockNumber = 0 ∨
    store.accReward store.lastAccRewardBlockNumber ≠ none

theorem Accurate.cacheAdd (h : Accurate chain store) (hacc : chain.supplyAt num = some acc) :
    Accurate chain (store.cacheAdd num acc) where
  puts := by
    simp only [SupplyStore.cacheAdd, List.forall_mem_append, List.forall_mem_singleton]
    exact ⟨h.puts, hacc⟩
  accReward := h.accReward
  last := h.last

theorem Accurate.checkpoint (h : Accurate chain store) (hacc : chain.supplyAt num = some acc)
    (hle : store.lastAccRewardBlockNumber ≤ num) :
    Accurate chain ((store.writeAccReward num acc).writeLastAccRewardBlockNumber num) where
  puts := by
    simp only [SupplyStore.writeAccReward, SupplyStore.writeLastAccRewardBlockNumber,
      List.forall_mem_append, List.forall_mem_singleton]
    exact ⟨h.puts, by rw [supplyAt_stored hacc, hacc]⟩
  accReward := by
    rintro n a hread
    simp only [SupplyStore.writeAccReward, SupplyStore.writeLastAccRewardBlockNumber] at hread ⊢
    by_cases hn : n = num
    · subst hn
      rw [Function.update_self, supplyAt_stored hacc] at hread
      exact ⟨le_rfl, by rw [← hread, hacc]⟩
    · rw [Function.update_of_ne hn] at hread
      obtain ⟨hlast, hsupply⟩ := h.accReward n a hread
      exact ⟨hlast.trans hle, hsupply⟩
  last := .inr (by
    simp [SupplyStore.writeAccReward, SupplyStore.writeLastAccRewardBlockNumber])

theorem Accurate.getAccReward (h : Accurate chain store) (num : ℕ) :
    Accurate chain (store.getAccReward num).2 := by
  unfold SupplyStore.getAccReward
  split
  · exact ⟨h.puts, h.accReward, h.last⟩
  · split
    · exact h
    · split
      · exact h
      · next hread => exact h.cacheAdd (h.accReward num _ hread).2

/-- The store and the sum at a block. -/
structure At (chain : SupplyChain) (num : ℕ) (s : SupplyStore C × AccReward) : Prop where
  accurate : Accurate chain s.1
  last_le : s.1.lastAccRewardBlockNumber ≤ num
  sum : chain.supplyAt num = some s.2

theorem accumulateBlock_spec (quit : ℕ → Bool) (num : ℕ) :
    Meets (At chain num) (accumulateBlock (C := C) chain quit (num + 1))
      (fun _ => At chain (num + 1)) (fun _ s => Accurate chain s.1) := by
  unfold accumulateBlock
  -- the sum of the block, with the cache
  have hadd : ∀ r, chain.getTotalReward (num + 1) = .ok r → ∀ s : SupplyStore C × AccReward,
      At chain num s → At chain (num + 1) (s.1.cacheAdd (num + 1) (s.2.add r), s.2.add r) := by
    rintro r hr ⟨store, acc⟩ ⟨hstore, hle, hacc⟩
    have hnext : chain.supplyAt (num + 1) = some (acc.add r) := by
      simp [SupplyChain.supplyAt, show chain.supplyAt num = some acc from hacc, hr,
        Except.toOption]
    exact ⟨hstore.cacheAdd hnext, Nat.le_succ_of_le hle, hnext⟩
  split
  · exact Meets.throw fun s hs => hs.accurate
  · split
    · exact Meets.throw fun s hs => hs.accurate
    · next r hr =>
      refine (Meets.modify (Q := fun _ => At chain (num + 1)) (hadd r hr)).bind fun _ => ?_
      split
      · exact Meets.throw fun s hs => hs.accurate
      · split
        · refine Meets.modify ?_
          rintro ⟨store, acc⟩ ⟨hstore, hle, hacc⟩
          exact ⟨hstore.checkpoint hacc hle, le_rfl, hacc⟩
        · exact Meets.pure fun s hs => hs

theorem accumulateReward_spec (quit : ℕ → Bool) {fromNum toNum : ℕ} (hle : fromNum ≤ toNum) :
    Meets (At chain fromNum) (accumulateReward (C := C) chain quit fromNum toNum)
      (fun _ => At chain toNum) (fun _ s => Accurate chain s.1) := by
  refine Meets.forM (I := fun done => At chain (fromNum + done.length)) ?_ ?_ ?_
  · exact fun s hs => hs
  · intro s hs
    rwa [List.length_range', Nat.add_sub_cancel' hle] at hs
  · intro done num rest hl
    -- the block after those that are done
    have hnum : num = fromNum + done.length + 1 := by
      have hget : (List.range' (fromNum + 1) (toNum - fromNum))[done.length]? = some num := by
        rw [hl, List.getElem?_append_right le_rfl, Nat.sub_self]
        rfl
      obtain ⟨hlt, hget⟩ := List.getElem?_eq_some_iff.mp hget
      rw [List.getElem_range'] at hget
      omega
    subst hnum
    rw [List.length_append, List.length_singleton, ← Nat.add_assoc]
    exact accumulateBlock_spec quit _

/-- What is stored is accurate, and so is the sum that the goroutine holds. -/
def Sound (m : SupplyManager C) : Prop :=
  match m.phase with
  | .stopped => Accurate m.chain m.store
  | .catchup lastNum acc => At m.chain lastNum (m.store, acc)
  | .listening lastNum acc => At m.chain lastNum (m.store, acc)

theorem follow_sound {quit : ℕ → Bool} {lastNum headNum : ℕ} {next : ℕ → AccReward → SupplyPhase}
    (hnext : next = .catchup ∨ next = .listening) (hle : lastNum ≤ headNum)
    (h : At chain lastNum (store, acc)) :
    Sound (follow chain store quit lastNum headNum acc next) := by
  have hmeets : Meets (At chain lastNum) (accumulateReward (C := C) chain quit lastNum headNum)
      (fun _ => At chain headNum) (fun _ s => Accurate chain s.1) := accumulateReward_spec quit hle
  unfold follow
  split
  · next hrun => exact hmeets.of_error h hrun
  · next hrun =>
    have hat := hmeets.of_ok h hrun
    rcases hnext with rfl | rfl
    · exact hat
    · exact hat

theorem start_sound (h : Accurate chain store) : Sound (start chain store) := by
  have hempty : Accurate chain { store with accRewardCache := C.empty } :=
    ⟨h.puts, h.accReward, h.last⟩
  -- the last number is never reset: what it counts is there
  have hreset : softReset { store with accRewardCache := C.empty } =
      { store with accRewardCache := C.empty } := by
    refine if_neg fun hnone => ?_
    rcases h.last with hlast | hlast
    · exact absurd hlast hnone.1.ne'
    · exact hlast hnone.2
  unfold start
  rw [hreset]
  dsimp only
  split
  · exact hempty
  · next store' hgenesis =>
    have hstore : Accurate chain store' := by
      unfold storeGenesis at hgenesis
      split at hgenesis
      · next hzero =>
        obtain ⟨supply, hsupply, rfl⟩ := map_eq_some_iff.mp hgenesis
        refine hempty.checkpoint ?_ hzero.le
        rw [SupplyChain.supplyAt, hsupply]
        rfl
      · rwa [← some.inj hgenesis]
    split
    · exact hstore
    · next hread => exact ⟨hstore, le_rfl, (hstore.accReward _ _ hread).2⟩

/-- Two chains with the same genesis state and the same blocks up to a number. -/
def Agrees (chain chain' : SupplyChain) (num : ℕ) : Prop :=
  chain'.totalSupplyFromState = chain.totalSupplyFromState ∧
    ∀ n ≤ num, chain'.getTotalReward n = chain.getTotalReward n

theorem Agrees.supplyAt {chain' : SupplyChain} (h : Agrees chain chain' num) {n : ℕ}
    (hn : n ≤ num) : chain'.supplyAt n = chain.supplyAt n := by
  induction n with
  | zero => rw [SupplyChain.supplyAt, SupplyChain.supplyAt, h.1]
  | succ n ih => rw [SupplyChain.supplyAt, SupplyChain.supplyAt, ih (Nat.le_of_succ_le hn), h.2 _ hn]

theorem Accurate.next {chain' : SupplyChain} (h : Accurate chain store)
    (hagrees : Agrees chain chain' num) (hle : store.lastAccRewardBlockNumber ≤ num) :
    Accurate chain' { store with puts := [] } where
  puts := by simp
  accReward := by
    rintro n a hread
    obtain ⟨hlast, hsupply⟩ := h.accReward n a hread
    exact ⟨hlast, by rw [hagrees.supplyAt (hlast.trans hle), hsupply]⟩
  last := h.last

/-- A head is not before the last one, and another chain has the same blocks up to it. -/
def Kept (m : SupplyManager C) : SupplyEvent → Prop
  | .chainHead headNum _ => m.lastNum ≤ headNum
  | .canonical chain => Agrees m.chain chain m.lastNum
  | _ => True

instance (chain chain' : SupplyChain) : Decidable (Agrees chain chain' num) :=
  inferInstanceAs (Decidable (_ ∧ ∀ n ≤ num, _))

instance : ∀ event : SupplyEvent, Decidable (Kept m event)
  | .chainHead headNum _ => inferInstanceAs (Decidable (m.lastNum ≤ headNum))
  | .canonical chain => inferInstanceAs (Decidable (Agrees m.chain chain m.lastNum))
  | .start | .currentBlock _ _ | .getAccReward _ | .stop => .isTrue trivial

theorem Sound.next {chain' : SupplyChain} (h : Sound m) (hagrees : Agrees m.chain chain' m.lastNum) :
    Sound ⟨chain', { m.store with puts := [] }, m.phase⟩ := by
  obtain ⟨chain, store, phase⟩ := m
  cases phase with
  | stopped => exact Accurate.next h hagrees le_rfl
  | catchup lastNum acc =>
    exact ⟨h.accurate.next hagrees h.last_le, h.last_le, (hagrees.supplyAt le_rfl).trans h.sum⟩
  | listening lastNum acc =>
    exact ⟨h.accurate.next hagrees h.last_le, h.last_le, (hagrees.supplyAt le_rfl).trans h.sum⟩

theorem Sound.getAccReward (h : Sound m) (num : ℕ) :
    Sound ⟨m.chain, (m.store.getAccReward num).2, m.phase⟩ := by
  have hlast : (m.store.getAccReward num).2.lastAccRewardBlockNumber =
      m.store.lastAccRewardBlockNumber := by
    unfold SupplyStore.getAccReward
    split
    · rfl
    · split
      · rfl
      · split <;> rfl
  obtain ⟨chain, store, phase⟩ := m
  cases phase with
  | stopped => exact Accurate.getAccReward h num
  | catchup lastNum acc => exact ⟨h.accurate.getAccReward num, hlast.trans_le h.last_le, h.sum⟩
  | listening lastNum acc => exact ⟨h.accurate.getAccReward num, hlast.trans_le h.last_le, h.sum⟩

theorem Sound.accurate (h : Sound m) : Accurate m.chain m.store := by
  obtain ⟨chain, store, phase⟩ := m
  cases phase with
  | stopped => exact h
  | catchup lastNum acc => exact h.accurate
  | listening lastNum acc => exact h.accurate

theorem step_sound {event : SupplyEvent} (hkept : Kept m event) (h : step m event = some m')
    (hsound : Sound m) : Sound m' := by
  have hnext := hsound.next ⟨rfl, fun _ _ => rfl⟩
  unfold step at h
  split at h
  case h_1 => exact some.inj h ▸ hsound.next hkept
  case h_2 => exact some.inj h ▸ start_sound hnext.accurate
  case h_3 hphase =>
    rw [hphase] at hnext
    split at h
    · next hlt => exact some.inj h ▸ follow_sound (.inl rfl) hlt.le hnext
    · exact some.inj h ▸ hnext
  case h_4 hphase =>
    rw [Kept, lastNum, hphase] at hkept
    rw [hphase] at hnext
    exact some.inj h ▸ follow_sound (.inr rfl) hkept hnext
  case h_5 num => exact some.inj h ▸ hnext.getAccReward num
  case h_6 => exact some.inj h ▸ hnext.accurate
  case h_7 => cases h

theorem fresh_sound (chain : SupplyChain) : Sound (fresh C chain) :=
  ⟨by simp [fresh], by simp [fresh], .inl rfl⟩

/-- As long as heads go forward on the chain, whatever is put or stored is the supply at its block
on the chain that is canonical then. -/
theorem supply_accurate (C : Cache ℕ AccReward) (chain : SupplyChain) (events : List SupplyEvent)
    (m : SupplyManager C) (h : Runs step Kept (fresh C chain) events m) :
    Accurate m.chain m.store :=
  (h.invariant (fresh_sound chain) fun _ _ _ hkept hstep hsound =>
    step_sound hkept hstep hsound).accurate

/-- Four blocks. From the third on gas is used. -/
def branchBlock (gasUsed num : ℕ) : Option (Header × List Tx × List ℕ) :=
  if num < 5 then some (⟨num, if num < 3 then 0 else gasUsed, some 1, 9⟩, [], []) else none

theorem branchBlock_regular (gasUsed num : ℕ) (header : Header) (txs : List Tx)
    (receipts : List ℕ) (pset : GovParamSet) (p : RewardParams)
    (hblock : branchBlock gasUsed num = some (header, txs, receipts))
    (hpset : RewardChain.raised.accumulateParams (.ofNat num) = .ok pset)
    (hp : pset.rewardParams = .ok p) :
    RewardInput.Regular ⟨header, txs, receipts, RewardChain.raised.rules num, p,
      RewardChain.raised.getStakingInfo⟩ := by
  have hparams : ∀ n < 5, ((RewardChain.raised.accumulateParams (.ofNat n)).toOption.bind
      fun pset => pset.rewardParams.toOption.map fun p => (p.mintingAmount, p.ratio)) =
        some (1, nodesOnly) := by
    decide +kernel
  unfold branchBlock at hblock
  split at hblock
  · next hnum =>
    cases hblock
    have hread := hparams num hnum
    rw [hpset] at hread
    simp only [Except.toOption, bind_some, hp, map_some, some.injEq, Prod.mk.injEq] at hread
    obtain ⟨hminted, hratio⟩ := hread
    have hkore : (RewardChain.raised.rules num).isKore ≠ true := Bool.false_ne_true
    refine ⟨⟨?_, ⟨_, rfl, by positivity⟩, ?_, (absurd · hkore)⟩, ?_, (absurd · hkore)⟩
    · exact hminted ▸ Int.one_nonneg
    · exact hratio ▸ nodesOnly_proper
    · exact hratio ▸ nodesOnly_fits
  · cases hblock

/-- Ten coins at genesis, one for each block, and half of the fees burnt. -/
def branch (gasUsed : ℕ) : SupplyChain :=
  RewardChain.raised.supplyChain (branchBlock gasUsed) (some 10) 2 (branchBlock_regular gasUsed)

/-- Heads that skip a block and come twice; then the third block is replaced. -/
theorem skipped_heads_accurate : ∃ m : SupplyManager (.unbounded ℕ AccReward),
    Runs step Kept (fresh _ (branch 0)) [.start, .currentBlock 0 fun _ => false,
      .chainHead 2 fun _ => false, .chainHead 2 fun _ => false, .canonical (branch 6),
      .chainHead 4 fun _ => false] m ∧
    Accurate m.chain m.store ∧ m.store.accReward 4 = some ⟨14, 6⟩ := by
  obtain ⟨m, hrun, hread⟩ := Runs.exists_of_exec (guarded step Kept)
    (fresh (.unbounded ℕ AccReward) (branch 0)) [.start, .currentBlock 0 fun _ => false,
      .chainHead 2 fun _ => false, .chainHead 2 fun _ => false, .canonical (branch 6),
      .chainHead 4 fun _ => false] (fun m => m.store.accReward 4) (some ⟨14, 6⟩)
    (by decide +kernel)
  exact ⟨m, hrun.of_guarded, supply_accurate _ _ _ _ hrun.of_guarded, hread⟩

/-- The head goes back from block two to one and forth again. The reward of block two is added
twice. -/
theorem rewound_head_counts_twice : ∃ m : SupplyManager (.unbounded ℕ AccReward),
    Runs step (fun _ _ => True) (fresh _ (branch 0)) [.start, .currentBlock 0 fun _ => false,
      .chainHead 2 fun _ => false, .chainHead 1 fun _ => false, .chainHead 2 fun _ => false] m ∧
    m.chain.supplyAt 2 = some ⟨12, 0⟩ ∧ m.store.accReward 2 = some ⟨13, 0⟩ := by
  obtain ⟨m, hrun, hread⟩ := Runs.exists_of_exec step
    (fresh (.unbounded ℕ AccReward) (branch 0)) [.start, .currentBlock 0 fun _ => false,
      .chainHead 2 fun _ => false, .chainHead 1 fun _ => false, .chainHead 2 fun _ => false]
    (fun m => (m.chain.supplyAt 2, m.store.accReward 2)) (some ⟨12, 0⟩, some ⟨13, 0⟩)
    (by decide +kernel)
  exact ⟨m, hrun, congrArg Prod.fst hread, congrArg Prod.snd hread⟩

end SupplyManager

end Kaia.Reward
