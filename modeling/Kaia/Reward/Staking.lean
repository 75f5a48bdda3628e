import Kaia.Backend.SnapshotJson
import Kaia.Reward.Conservation

/-! # Stakes of the council

Rewards are shared by stakes that are consolidated through index maps; consensus sums up the stakes
of a validator in floating point. Both are sums for one reward address, as long as these fit.
-/

namespace Kaia.Reward

open Foundation List Function

/-- The council of a `StakingInfo`. -/
structure CouncilLists where
  councilNodeAddrs : List Address
  councilStakingAddrs : List Address
  councilRewardAddrs : List Address
  councilStakingAmounts : List UInt64

structure ConsolidatedNode where
  nodeAddrs : List Address
  stakingAddrs : List Address
  rewardAddr : Address
  stakingAmount : UInt64
  deriving DecidableEq

structure ConsolidatedStakingInfo where
  nodes : List ConsolidatedNode
  nodeIndex : Address → Option ℕ

/-- The loop of `GetConsolidatedStakingInfo`, with the index of reward addresses it keeps. -/
structure Consolidation extends ConsolidatedStakingInfo where
  rewardIndex : Address → Option ℕ

def Consolidation.empty : Consolidation := ⟨⟨[], fun _ => none⟩, fun _ => none⟩

/-- What the lists hold at one index. -/
structure CouncilEntry where
  nodeAddr : Address
  stakingAddr : Address
  rewardAddr : Address
  stakingAmount : UInt64

def CouncilEntry.toCouncilNode (e : CouncilEntry) : CouncilNode := ⟨e.rewardAddr, e.stakingAmount⟩

def ConsolidatedNode.toCouncilNode (node : ConsolidatedNode) : CouncilNode :=
  ⟨node.rewardAddr, node.stakingAmount⟩

/-- One round of the loop. -/
def Consolidation.add (c : Consolidation) (e : CouncilEntry) : Consolidation :=
  match c.rewardIndex e.rewardAddr with
  | none =>
    { nodes := c.nodes ++ [⟨[e.nodeAddr], [e.stakingAddr], e.rewardAddr, e.stakingAmount⟩]
      nodeIndex := Function.update c.nodeIndex e.nodeAddr (some c.nodes.length)
      rewardIndex := Function.update c.rewardIndex e.rewardAddr (some c.nodes.length) }
  | some idx =>
    { c with
      nodes := c.nodes.modify idx fun node =>
        { node with
          nodeAddrs := node.nodeAddrs ++ [e.nodeAddr]
          stakingAddrs := node.stakingAddrs ++ [e.stakingAddr]
          stakingAmount := node.stakingAmount + e.stakingAmount }
      nodeIndex := Function.update c.nodeIndex e.nodeAddr (some idx) }

/-- The loop runs over the node addresses; the other lists have to be as long. -/
def consolidateFrom :
    List Address → List Address → List Address → List UInt64 → Consolidation →
      Except GoPanic Consolidation
  | [], _, _, _, c => .ok c
  | nodeAddr :: ns, stakingAddr :: ss, rewardAddr :: rs, stakingAmount :: as, c =>
    consolidateFrom ns ss rs as (c.add ⟨nodeAddr, stakingAddr, rewardAddr, stakingAmount⟩)
  | _ :: _, _, _, _, _ => .error .indexOutOfRange

def getConsolidatedStakingInfo (s : CouncilLists) : Except GoPanic ConsolidatedStakingInfo := do
  let c ← consolidateFrom s.councilNodeAddrs s.councilStakingAddrs s.councilRewardAddrs
    s.councilStakingAmounts .empty
  .ok c.toConsolidatedStakingInfo

def ConsolidatedStakingInfo.getConsolidatedNode (c : ConsolidatedStakingInfo)
    (nodeAddr : Address) : Option ConsolidatedNode :=
  match c.nodeIndex nodeAddr with
  | none => none
  | some idx => c.nodes[idx]?

def zipEntries : List Address → List Address → List Address → List UInt64 → List CouncilEntry
  | nodeAddr :: ns, stakingAddr :: ss, rewardAddr :: rs, stakingAmount :: as =>
    ⟨nodeAddr, stakingAddr, rewardAddr, stakingAmount⟩ :: zipEntries ns ss rs as
  | _, _, _, _ => []

variable {ns ss rs : List Address} {as : List UInt64}

theorem consolidateFrom_eq (hs : ns.length = ss.length) (hr : ns.length = rs.length)
    (ha : ns.length = as.length) (c : Consolidation) :
    consolidateFrom ns ss rs as c = .ok ((zipEntries ns ss rs as).foldl .add c) ∧
      (zipEntries ns ss rs as).map (·.nodeAddr) = ns ∧
      (zipEntries ns ss rs as).map (·.rewardAddr) = rs ∧
      (zipEntries ns ss rs as).map (·.stakingAmount) = as := by
  induction ns generalizing ss rs as c with
  | nil =>
    obtain rfl := length_eq_zero_iff.mp hr.symm
    obtain rfl := length_eq_zero_iff.mp ha.symm
    exact ⟨rfl, rfl, rfl, rfl⟩
  | cons n ns ih =>
    obtain ⟨s, ss, rfl⟩ := exists_cons_of_length_eq_add_one hs.symm
    obtain ⟨r, rs, rfl⟩ := exists_cons_of_length_eq_add_one hr.symm
    obtain ⟨a, as, rfl⟩ := exists_cons_of_length_eq_add_one ha.symm
    obtain ⟨hfold, hns, hrs, has⟩ := ih (Nat.succ.inj hs) (Nat.succ.inj hr) (Nat.succ.inj ha)
      (c.add ⟨n, s, r, a⟩)
    exact ⟨hfold, congrArg (n :: ·) hns, congrArg (r :: ·) hrs, congrArg (a :: ·) has⟩

namespace CouncilLists

variable (s : CouncilLists)

/-- The four lists are equally long, as `newStakingInfo` makes them. -/
structure Aligned : Prop where
  staking : s.councilNodeAddrs.length = s.councilStakingAddrs.length
  reward : s.councilNodeAddrs.length = s.councilRewardAddrs.length
  amount : s.councilNodeAddrs.length = s.councilStakingAmounts.length

def entries : List CouncilEntry :=
  zipEntries s.councilNodeAddrs s.councilStakingAddrs s.councilRewardAddrs s.councilStakingAmounts

def forRewards (kifAddr kefAddr : Address) : StakingInfo :=
  ⟨s.entries.map (·.toCouncilNode), kifAddr, kefAddr⟩

def forConsensus (useGini : Bool) : Kaia.StakingInfo :=
  ⟨s.councilNodeAddrs, s.councilRewardAddrs, useGini, s.councilStakingAmounts.map (·.toNat)⟩

def stakeOf (rewardAddr : Address) : ℕ :=
  ((s.entries.filter (·.rewardAddr = rewardAddr)).map (·.stakingAmount.toNat)).sum

def stakesAbove (minStake : UInt64) : ℕ :=
  (s.councilRewardAddrs.dedup.map fun rewardAddr => s.stakeOf rewardAddr - minStake.toNat).sum

end CouncilLists

variable {nodes : List CouncilNode} {entry node : CouncilNode} {i : ℕ}

theorem consolidate_of_notMem (h : entry.rewardAddr ∉ nodes.map (·.rewardAddr)) :
    consolidate entry nodes = nodes ++ [entry] := by
  induction nodes with
  | nil => rfl
  | cons node nodes ih =>
    rw [map_cons, mem_cons, not_or] at h
    rw [consolidate, if_neg (Ne.symm h.1), ih h.2, cons_append]

theorem consolidate_of_getElem? (hnodup : (nodes.map (·.rewardAddr)).Nodup)
    (hi : nodes[i]? = some node) (h : node.rewardAddr = entry.rewardAddr) :
    consolidate entry nodes = nodes.modify i fun node =>
      { node with stakingAmount := node.stakingAmount + entry.stakingAmount } := by
  induction nodes generalizing i with
  | nil => cases hi
  | cons first nodes ih =>
    rw [map_cons, nodup_cons] at hnodup
    cases i with
    | zero =>
      cases hi
      rw [consolidate, if_pos h, modify_zero_cons]
    | succ i =>
      have hne : first.rewardAddr ≠ entry.rewardAddr := by
        intro heq
        apply hnodup.1
        rw [heq, ← h]
        exact mem_map_of_mem (mem_of_getElem? hi)
      rw [consolidate, if_neg hne, modify_succ_cons, ih hnodup.2 hi]

theorem mem_consolidate (hnodup : (nodes.map (·.rewardAddr)).Nodup)
    (h : node ∈ consolidate entry nodes) :
    (node ∈ nodes ∧ node.rewardAddr ≠ entry.rewardAddr) ∨
    (entry.rewardAddr ∉ nodes.map (·.rewardAddr) ∧ node = entry) ∨
    ∃ old ∈ nodes, old.rewardAddr = entry.rewardAddr ∧
      node = { old with stakingAmount := old.stakingAmount + entry.stakingAmount } := by
  induction nodes with
  | nil => exact .inr (.inl ⟨not_mem_nil, mem_singleton.mp h⟩)
  | cons first nodes ih =>
    rw [map_cons, nodup_cons] at hnodup
    rw [consolidate] at h
    split at h
    · next heq =>
      rcases mem_cons.mp h with rfl | hmem
      · exact .inr (.inr ⟨first, mem_cons_self, heq, rfl⟩)
      · left
        refine ⟨mem_cons_of_mem _ hmem, ?_⟩
        intro hsame
        apply hnodup.1
        rw [heq, ← hsame]
        exact mem_map_of_mem hmem
    · next hne =>
      rcases mem_cons.mp h with rfl | hmem
      · exact .inl ⟨mem_cons_self, hne⟩
      · rcases ih hnodup.2 hmem with ⟨hold, hother⟩ | ⟨hnew, rfl⟩ | ⟨old, hold, hsame, rfl⟩
        · exact .inl ⟨mem_cons_of_mem _ hold, hother⟩
        · refine .inr (.inl ⟨?_, rfl⟩)
          rw [map_cons, mem_cons, not_or]
          exact ⟨Ne.symm hne, hnew⟩
        · exact .inr (.inr ⟨old, mem_cons_of_mem _ hold, hsame, rfl⟩)

def stakeIn (council : List CouncilNode) (rewardAddr : Address) : ℕ :=
  ((council.filter (·.rewardAddr = rewardAddr)).map (·.stakingAmount.toNat)).sum

theorem stakeIn_concat (council : List CouncilNode) (entry : CouncilNode) (rewardAddr : Address) :
    stakeIn (council ++ [entry]) rewardAddr = stakeIn council rewardAddr +
      if entry.rewardAddr = rewardAddr then entry.stakingAmount.toNat else 0 := by
  unfold stakeIn
  by_cases h : entry.rewardAddr = rewardAddr <;> simp [h]

theorem stakeIn_eq_zero {council : List CouncilNode} {rewardAddr : Address}
    (h : rewardAddr ∉ council.map (·.rewardAddr)) : stakeIn council rewardAddr = 0 := by
  unfold stakeIn
  rw [filter_eq_nil_iff.mpr]
  · rfl
  · intro entry hentry heq
    apply h
    rw [← of_decide_eq_true heq]
    exact mem_map_of_mem hentry

/-- One node for each reward address, with the sum of its amounts as a machine word. -/
structure Consolidated (council nodes : List CouncilNode) : Prop where
  nodup : (nodes.map (·.rewardAddr)).Nodup
  mem_iff : ∀ a, a ∈ nodes.map (·.rewardAddr) ↔ a ∈ council.map (·.rewardAddr)
  amount : ∀ node ∈ nodes, node.stakingAmount.toNat = stakeIn council node.rewardAddr % 2 ^ 64

theorem Consolidated.add {council : List CouncilNode} (h : Consolidated council nodes)
    (entry : CouncilNode) : Consolidated (council ++ [entry]) (consolidate entry nodes) where
  nodup := nodup_consolidate h.nodup
  mem_iff a := by
    rw [map_rewardAddr_consolidate, map_append, mem_append]
    split
    · next hmem =>
      rw [h.mem_iff]
      constructor
      · exact .inl
      · rintro (ha | ha)
        · exact ha
        · rw [mem_singleton.mp ha]
          exact (h.mem_iff _).mp hmem
    · rw [mem_append, h.mem_iff]
      rfl
  amount := by
    intro node hnode
    rw [stakeIn_concat]
    rcases mem_consolidate h.nodup hnode with ⟨hold, hne⟩ | ⟨hnew, rfl⟩ | ⟨old, hold, hsame, rfl⟩
    · rw [if_neg (Ne.symm hne), Nat.add_zero, h.amount node hold]
    · rw [h.mem_iff] at hnew
      rw [if_pos rfl, stakeIn_eq_zero hnew, Nat.zero_add]
      exact (Nat.mod_eq_of_lt node.stakingAmount.toNat_lt).symm
    · dsimp only
      rw [if_pos hsame.symm, UInt64.toNat_add, h.amount old hold, Nat.mod_add_mod]

theorem StakingInfo.consolidated_spec (info : StakingInfo) :
    Consolidated info.council info.consolidated := by
  unfold consolidated
  induction info.council using reverseRecOn with
  | nil => exact ⟨nodup_nil, fun _ => Iff.rfl, nofun⟩
  | append_singleton council entry ih =>
    rw [foldl_append]
    exact ih.add entry

/-- The indices point to the nodes, which are those of rewards. -/
structure Indexed (c : Consolidation) (done : List CouncilEntry) : Prop where
  nodes : c.nodes.map (·.toCouncilNode) =
    (done.map (·.toCouncilNode)).foldl (fun nodes entry => consolidate entry nodes) []
  rewardIndex_none : ∀ a, c.rewardIndex a = none → a ∉ c.nodes.map (·.rewardAddr)
  rewardIndex_some : ∀ a i, c.rewardIndex a = some i →
    ∃ node, c.nodes[i]? = some node ∧ node.rewardAddr = a
  nodeIndex_none : ∀ a, c.nodeIndex a = none → a ∉ done.map (·.nodeAddr)
  nodeIndex_some : ∀ a i, c.nodeIndex a = some i →
    ∃ node, c.nodes[i]? = some node ∧ ∃ e ∈ done, e.nodeAddr = a ∧ node.rewardAddr = e.rewardAddr

theorem Indexed.empty : Indexed .empty [] :=
  ⟨rfl, fun _ _ => not_mem_nil, nofun, fun _ _ => not_mem_nil, nofun⟩

variable {c : Consolidation} {done : List CouncilEntry} {e : CouncilEntry} {idx : ℕ}

theorem Indexed.nodup (h : Indexed c done) : (c.nodes.map (·.rewardAddr)).Nodup := by
  have hspec := (StakingInfo.consolidated_spec ⟨done.map (·.toCouncilNode), 0, 0⟩).nodup
  unfold StakingInfo.consolidated at hspec
  rw [← h.nodes, map_map] at hspec
  exact hspec

theorem map_rewardAddr_toCouncilNode (nodes : List ConsolidatedNode) :
    (nodes.map (·.toCouncilNode)).map (·.rewardAddr) = nodes.map (·.rewardAddr) := by
  rw [map_map]
  rfl

/-- The entry is consolidated, and both of its addresses point to its node. -/
structure Added (c : Consolidation) (e : CouncilEntry) (c' : Consolidation) (idx : ℕ) : Prop where
  nodes : c'.nodes.map (·.toCouncilNode) =
    consolidate e.toCouncilNode (c.nodes.map (·.toCouncilNode))
  placed : ∃ node, c'.nodes[idx]? = some node ∧ node.rewardAddr = e.rewardAddr
  kept : ∀ (i : ℕ) (node : ConsolidatedNode), c.nodes[i]? = some node →
    ∃ node', c'.nodes[i]? = some node' ∧ node'.rewardAddr = node.rewardAddr
  nodeIndex : c'.nodeIndex = Function.update c.nodeIndex e.nodeAddr (some idx)
  rewardIndex : c'.rewardIndex = Function.update c.rewardIndex e.rewardAddr (some idx)

theorem Indexed.added (h : Indexed c done) (e : CouncilEntry) :
    ∃ idx, Added c e (c.add e) idx := by
  unfold Consolidation.add
  cases hindex : c.rewardIndex e.rewardAddr with
  | none =>
    have hnew : e.toCouncilNode.rewardAddr ∉
        (c.nodes.map (·.toCouncilNode)).map (·.rewardAddr) := by
      rw [map_rewardAddr_toCouncilNode]
      exact h.rewardIndex_none _ hindex
    refine ⟨c.nodes.length, ?_, ⟨_, getElem?_concat_length, rfl⟩, ?_, rfl, rfl⟩
    · rw [consolidate_of_notMem hnew, map_append]
      rfl
    · intro i node hi
      have hlt := (List.getElem?_eq_some_iff.mp hi).1
      exact ⟨node, (getElem?_append_left hlt).trans hi, rfl⟩
  | some idx =>
    obtain ⟨node, hidx, hnode⟩ := h.rewardIndex_some _ _ hindex
    have hkept : ∀ (i : ℕ) (node : ConsolidatedNode), c.nodes[i]? = some node → ∃ node',
        (c.nodes.modify idx fun node =>
          { node with
            nodeAddrs := node.nodeAddrs ++ [e.nodeAddr]
            stakingAddrs := node.stakingAddrs ++ [e.stakingAddr]
            stakingAmount := node.stakingAmount + e.stakingAmount })[i]? = some node' ∧
          node'.rewardAddr = node.rewardAddr := by
      intro i node hi
      rw [getElem?_modify, hi]
      split <;> exact ⟨_, rfl, rfl⟩
    refine ⟨idx, ?_, ?_, hkept, rfl, ?_⟩
    · have hsum := @consolidate_of_getElem? (c.nodes.map (·.toCouncilNode)) e.toCouncilNode
        node.toCouncilNode idx (by rw [map_rewardAddr_toCouncilNode]; exact h.nodup)
        (by rw [getElem?_map, hidx]; rfl) hnode
      rw [hsum]
      apply ext_getElem?
      intro i
      rw [getElem?_map, getElem?_modify, getElem?_modify, getElem?_map]
      cases c.nodes[i]? with
      | none => rfl
      | some node => split <;> rfl
    · obtain ⟨node', hidx', hnode'⟩ := hkept idx node hidx
      exact ⟨node', hidx', hnode'.trans hnode⟩
    · have hself := update_eq_self e.rewardAddr c.rewardIndex
      rw [hindex] at hself
      exact hself.symm

theorem Indexed.add (h : Indexed c done) (e : CouncilEntry) :
    Indexed (c.add e) (done ++ [e]) := by
  obtain ⟨idx, hadded⟩ := h.added e
  obtain ⟨placed, hplaced, hreward⟩ := hadded.placed
  constructor
  · rw [map_append, foldl_append, ← h.nodes]
    exact hadded.nodes
  · intro a ha
    rw [← map_rewardAddr_toCouncilNode, hadded.nodes, map_rewardAddr_consolidate,
      map_rewardAddr_toCouncilNode]
    rw [hadded.rewardIndex] at ha
    by_cases heq : a = e.rewardAddr
    · rw [heq, update_self] at ha
      cases ha
    · rw [update_of_ne heq] at ha
      split
      · exact h.rewardIndex_none a ha
      · rw [mem_append, not_or]
        exact ⟨h.rewardIndex_none a ha, fun hmem => heq (mem_singleton.mp hmem)⟩
  · intro a i ha
    rw [hadded.rewardIndex] at ha
    by_cases heq : a = e.rewardAddr
    · rw [heq, update_self] at ha
      cases ha
      exact ⟨placed, hplaced, hreward.trans heq.symm⟩
    · rw [update_of_ne heq] at ha
      obtain ⟨node, hi, hnode⟩ := h.rewardIndex_some a i ha
      obtain ⟨node', hi', hnode'⟩ := hadded.kept i node hi
      exact ⟨node', hi', hnode'.trans hnode⟩
  · intro a ha
    rw [hadded.nodeIndex] at ha
    rw [map_append, mem_append, not_or]
    by_cases heq : a = e.nodeAddr
    · rw [heq, update_self] at ha
      cases ha
    · rw [update_of_ne heq] at ha
      exact ⟨h.nodeIndex_none a ha, fun hmem => heq (mem_singleton.mp hmem)⟩
  · intro a i ha
    rw [hadded.nodeIndex] at ha
    by_cases heq : a = e.nodeAddr
    · rw [heq, update_self] at ha
      cases ha
      exact ⟨placed, hplaced, e, mem_append_right _ (mem_singleton_self e), heq.symm,
        hreward⟩
    · rw [update_of_ne heq] at ha
      obtain ⟨node, hi, e', he', haddr, hsame⟩ := h.nodeIndex_some a i ha
      obtain ⟨node', hi', hnode'⟩ := hadded.kept i node hi
      exact ⟨node', hi', e', mem_append_left _ he', haddr, hnode'.trans hsame⟩

theorem Indexed.foldl (h : Indexed c done) (entries : List CouncilEntry) :
    Indexed (entries.foldl .add c) (done ++ entries) := by
  induction entries generalizing c done with
  | nil => rwa [append_nil]
  | cons e entries ih =>
    have htail := ih (h.add e)
    rwa [append_assoc] at htail

namespace CouncilLists

variable {s : CouncilLists}

theorem stakeOf_eq (rewardAddr : Address) :
    s.stakeOf rewardAddr = stakeIn (s.entries.map (·.toCouncilNode)) rewardAddr := by
  unfold stakeOf stakeIn
  rw [filter_map, map_map]
  rfl

theorem Aligned.consolidated (h : s.Aligned) : ∃ c : Consolidation,
    getConsolidatedStakingInfo s = .ok c.toConsolidatedStakingInfo ∧ Indexed c s.entries := by
  have hloop := (consolidateFrom_eq h.staking h.reward h.amount .empty).1
  refine ⟨_, ?_, Indexed.empty.foldl s.entries⟩
  rw [getConsolidatedStakingInfo, hloop]
  rfl

theorem Aligned.map_nodeAddr (h : s.Aligned) : s.entries.map (·.nodeAddr) = s.councilNodeAddrs :=
  (consolidateFrom_eq h.staking h.reward h.amount .empty).2.1

theorem Aligned.map_entry_rewardAddr (h : s.Aligned) :
    s.entries.map (·.rewardAddr) = s.councilRewardAddrs :=
  (consolidateFrom_eq h.staking h.reward h.amount .empty).2.2.1

theorem Aligned.map_stakingAmount (h : s.Aligned) :
    s.entries.map (·.stakingAmount.toNat) = s.councilStakingAmounts.map (·.toNat) := by
  have hcolumn := (consolidateFrom_eq h.staking h.reward h.amount .empty).2.2.2
  rw [← hcolumn, map_map]
  rfl

theorem Aligned.map_rewardAddr (h : s.Aligned) :
    (s.entries.map (·.toCouncilNode)).map (·.rewardAddr) = s.councilRewardAddrs := by
  rw [map_map, ← h.map_entry_rewardAddr]
  rfl

theorem Aligned.exists_entry (h : s.Aligned) {a : Address} {i : ℕ}
    (hi : s.councilNodeAddrs[i]? = some a) :
    ∃ e ∈ s.entries, e.nodeAddr = a ∧ s.councilRewardAddrs[i]? = some e.rewardAddr := by
  rw [← h.map_nodeAddr, getElem?_map] at hi
  obtain ⟨e, he, haddr⟩ := Option.map_eq_some_iff.mp hi
  refine ⟨e, mem_of_getElem? he, haddr, ?_⟩
  rw [← h.map_entry_rewardAddr, getElem?_map, he]
  rfl

/-- The nodes that share rewards, whatever the addresses of the funds are. -/
def rewardNodes (s : CouncilLists) : List CouncilNode := (s.forRewards 0 0).consolidated

theorem rewardNodes_spec (s : CouncilLists) :
    Consolidated (s.entries.map (·.toCouncilNode)) s.rewardNodes :=
  (s.forRewards 0 0).consolidated_spec

end CouncilLists

theorem Indexed.mem_rewardNodes {s : CouncilLists} (h : Indexed c s.entries)
    {node : ConsolidatedNode} (hnode : node ∈ c.nodes) : node.toCouncilNode ∈ s.rewardNodes := by
  have hmem : node.toCouncilNode ∈ c.nodes.map (·.toCouncilNode) := mem_map_of_mem hnode
  rw [h.nodes] at hmem
  exact hmem

variable {minStake total : UInt64} {stakeReward : ℤ}

theorem lookup_foldlM_addShare {acc : Rewards × ℤ} {shares : Rewards} {rest : ℤ}
    (hnodup : (nodes.map (·.rewardAddr)).Nodup)
    (htotal : ∀ node ∈ nodes, minStake < node.stakingAmount → total ≠ 0)
    (h : nodes.foldlM (addShare stakeReward minStake total) acc = .ok (shares, rest))
    (a : Address) :
    shares.lookup a =
      match nodes.find? (·.rewardAddr = a) with
      | some node => if 0 < nodeShare stakeReward minStake total node then
          some (nodeShare stakeReward minStake total node) else acc.1.lookup a
      | none => acc.1.lookup a := by
  induction nodes generalizing acc with
  | nil =>
    cases h
    rfl
  | cons node nodes ih =>
    obtain ⟨htotal₁, htotal⟩ := forall_mem_cons.mp htotal
    rw [map_cons, nodup_cons] at hnodup
    rw [foldlM_cons, addShare_eq htotal₁] at h
    rw [ih hnodup.2 htotal h, find?_cons]
    by_cases heq : node.rewardAddr = a
    · -- the address does not come again
      have hnone : nodes.find? (·.rewardAddr = a) = none := by
        rw [find?_eq_none]
        intro other hother hsame
        apply hnodup.1
        rw [heq, ← of_decide_eq_true hsame]
        exact mem_map_of_mem hother
      rw [hnone]
      simp only [heq, decide_true]
      split
      · rw [AList.lookup_insert]
      · rfl
    · have hother : (if 0 < nodeShare stakeReward minStake total node then
          acc.1.insert node.rewardAddr (nodeShare stakeReward minStake total node)
          else acc.1).lookup a = acc.1.lookup a := by
        split
        · exact AList.lookup_insert_ne (Ne.symm heq)
        · rfl
      simp only [heq, decide_false, hother]

/-- One node for each reward address, exact shares above the minimum, and the rest. -/
structure FairShares (s : CouncilLists) (minStake : UInt64) (stakeReward : ℤ)
    (c : ConsolidatedStakingInfo) (shares : Rewards) (remaining : ℤ) : Prop where
  nodes_nodup : (c.nodes.map (·.rewardAddr)).Nodup
  nodes_mem : ∀ a, a ∈ c.nodes.map (·.rewardAddr) ↔ a ∈ s.councilRewardAddrs
  nodes_amount : ∀ node ∈ c.nodes, node.stakingAmount.toNat = s.stakeOf node.rewardAddr
  lookup_shares : ∀ a, shares.lookup a =
    let amount := stakeReward * (s.stakeOf a - minStake.toNat : ℕ) / s.stakesAbove minStake
    if minStake.toNat < s.stakeOf a ∧ 0 < amount then some amount else none
  rest : remaining = stakeReward - sumValues shares
  rest_nonneg : 0 ≤ remaining
  rest_lt : (∃ node ∈ c.nodes, minStake < node.stakingAmount) →
    remaining < c.nodes.countP fun node => minStake < node.stakingAmount
  rest_all : (∀ node ∈ c.nodes, ¬ minStake < node.stakingAmount) → remaining = stakeReward

variable {s : CouncilLists}

section

variable (haligned : s.Aligned) (hfit : ∀ a, s.stakeOf a < 2 ^ 64)
  (htotal : s.stakesAbove minStake < 2 ^ 64)

include hfit

theorem amount_of_fits {node : CouncilNode} (h : node ∈ s.rewardNodes) :
    node.stakingAmount.toNat = s.stakeOf node.rewardAddr := by
  rw [s.rewardNodes_spec.amount node h, ← CouncilLists.stakeOf_eq, Nat.mod_eq_of_lt (hfit _)]

include haligned

theorem sum_stakeAbove : (s.rewardNodes.map (stakeAbove minStake)).sum = s.stakesAbove minStake := by
  have hmap : s.rewardNodes.map (stakeAbove minStake) =
      (s.rewardNodes.map (·.rewardAddr)).map fun a => s.stakeOf a - minStake.toNat := by
    rw [map_map]
    apply map_congr_left
    intro node hnode
    rw [stakeAbove, amount_of_fits hfit hnode]
    rfl
  have hperm : (s.rewardNodes.map (·.rewardAddr)).Perm s.councilRewardAddrs.dedup := by
    rw [perm_ext_iff_of_nodup s.rewardNodes_spec.nodup (nodup_dedup _)]
    intro a
    rw [s.rewardNodes_spec.mem_iff, haligned.map_rewardAddr, mem_dedup]
  rw [hmap, CouncilLists.stakesAbove]
  exact (hperm.map _).sum_eq

include htotal

theorem sum_stakeAbove_lt : (s.rewardNodes.map (stakeAbove minStake)).sum < 2 ^ 64 := by
  rw [sum_stakeAbove haligned hfit]
  exact htotal

theorem nodeShare_of_fits {node : CouncilNode} (h : node ∈ s.rewardNodes) :
    nodeShare stakeReward minStake (totalStakes s.rewardNodes minStake) node =
      stakeReward * (s.stakeOf node.rewardAddr - minStake.toNat : ℕ) / s.stakesAbove minStake := by
  rw [nodeShare, toNat_totalStakes, sum_stakeAbove haligned hfit, Nat.mod_eq_of_lt htotal,
    stakeAbove, amount_of_fits hfit h, share]

theorem lookup_of_fits {shares : Rewards} {rest : ℤ}
    (h : calcShares (some (s.forRewards 0 0)) stakeReward minStake = .ok (shares, rest))
    (a : Address) :
    shares.lookup a =
      let amount := stakeReward * (s.stakeOf a - minStake.toNat : ℕ) / s.stakesAbove minStake
      if minStake.toNat < s.stakeOf a ∧ 0 < amount then some amount else none := by
  have hsum := sum_stakeAbove_lt haligned hfit htotal
  rw [lookup_foldlM_addShare s.rewardNodes_spec.nodup
    (fun _ hnode hstake => totalStakes_ne_zero hsum hnode hstake) h a, AList.lookup_empty]
  cases hfind : s.rewardNodes.find? (·.rewardAddr = a) with
  | none =>
    have hzero : s.stakeOf a = 0 := by
      rw [CouncilLists.stakeOf_eq]
      apply stakeIn_eq_zero
      rw [← s.rewardNodes_spec.mem_iff]
      intro hmem
      obtain ⟨node, hnode, haddr⟩ := mem_map.mp hmem
      exact find?_eq_none.mp hfind node hnode (decide_eq_true haddr)
    simp [hzero]
  | some node =>
    have haddr : node.rewardAddr = a := by simpa using find?_some hfind
    dsimp only
    rw [nodeShare_of_fits haligned hfit htotal (mem_of_find?_eq_some hfind), haddr]
    by_cases hstake : minStake.toNat < s.stakeOf a
    · simp only [hstake, true_and]
    · -- nothing is shared below the minimum
      simp [hstake, Nat.sub_eq_zero_of_le (Nat.le_of_not_lt hstake)]

theorem rest_lt_countP {node : CouncilNode} (hnode : node ∈ s.rewardNodes)
    (hstake : minStake < node.stakingAmount) :
    stakeReward - (s.rewardNodes.map (nodeShare stakeReward minStake
        (totalStakes s.rewardNodes minStake))).sum <
      s.rewardNodes.countP fun node => minStake < node.stakingAmount := by
  have hsum := sum_stakeAbove_lt haligned hfit htotal
  generalize s.rewardNodes = nodes at hnode hsum ⊢
  have htoNat := toNat_totalStakes nodes minStake
  rw [Nat.mod_eq_of_lt hsum] at htoNat
  have hpos : 0 < ((totalStakes nodes minStake).toNat : ℤ) := by
    apply Int.natCast_pos.mpr
    apply Nat.pos_of_ne_zero
    intro hzero
    exact totalStakes_ne_zero hsum hnode hstake (UInt64.toNat_inj.mp hzero)
  have hparts : ∀ part ∈ nodes.map (fun node => (stakeAbove minStake node : ℤ)), 0 ≤ part := by
    rintro _ hpart
    obtain ⟨node, -, rfl⟩ := mem_map.mp hpart
    exact Int.natCast_nonneg _
  have hwhole : (nodes.map (fun node => (stakeAbove minStake node : ℤ))).sum =
      (totalStakes nodes minStake).toNat := by
    rw [← comp_def (fun n : ℕ => (n : ℤ)), ← map_map, ← Nat.cast_list_sum, htoNat]
  have hlt := sub_sum_share_lt stakeReward hpos hparts hwhole
  rw [map_map, countP_map] at hlt
  have hcount : nodes.countP ((fun part : ℤ => decide (0 < part)) ∘
      fun node => (stakeAbove minStake node : ℤ)) =
      nodes.countP fun node => minStake < node.stakingAmount := by
    apply countP_congr
    intro node _
    by_cases h : minStake < node.stakingAmount
    · simp [h, stakeAbove_pos h]
    · simp [h, stakeAbove_eq_zero h]
  rw [hcount] at hlt
  exact hlt

end

/-- Staking shares are exact and fair, as long as the amounts sum up to machine words. -/
theorem calcShares_fair (s : CouncilLists) (kifAddr kefAddr : Address) (minStake : UInt64)
    (stakeReward : ℤ) (haligned : s.Aligned) (hreward : 0 ≤ stakeReward)
    (hfit : ∀ a, s.stakeOf a < 2 ^ 64) (htotal : s.stakesAbove minStake < 2 ^ 64) :
    ∃ c shares remaining, getConsolidatedStakingInfo s = .ok c ∧
      calcShares (some (s.forRewards kifAddr kefAddr)) stakeReward minStake =
        .ok (shares, remaining) ∧ FairShares s minStake stakeReward c shares remaining := by
  obtain ⟨c, hc, hindexed⟩ := haligned.consolidated
  have hnodes : c.nodes.map (·.toCouncilNode) = s.rewardNodes := hindexed.nodes
  have hsum := sum_stakeAbove_lt haligned hfit htotal
  have hstaked := fun node hnode hstake =>
    @totalStakes_ne_zero minStake node _ hsum hnode hstake
  obtain ⟨shares, hshares, hvalues, -⟩ := calcShares_some _ hreward hstaked
  have hle := sum_nodeShare_le hreward
    (by rw [toNat_totalStakes, Nat.mod_eq_of_lt hsum] :
      (s.rewardNodes.map (stakeAbove minStake)).sum ≤ (totalStakes s.rewardNodes minStake).toNat)
  refine ⟨c.toConsolidatedStakingInfo, shares, _, hc, hshares, ?_⟩
  constructor
  · exact hindexed.nodup
  · intro a
    rw [← map_rewardAddr_toCouncilNode, hnodes, s.rewardNodes_spec.mem_iff, haligned.map_rewardAddr]
  · intro node hnode
    exact amount_of_fits hfit (hindexed.mem_rewardNodes hnode)
  · intro a
    exact lookup_of_fits haligned hfit htotal hshares a
  · rw [hvalues]
  · exact sub_nonneg.mpr hle
  · rintro ⟨node, hnode, hstake⟩
    have hlt := @rest_lt_countP minStake stakeReward s haligned hfit htotal _
      (hindexed.mem_rewardNodes hnode) hstake
    rw [← hnodes, countP_map, hnodes] at hlt
    exact hlt
  · intro hnone
    show stakeReward - (s.rewardNodes.map _).sum = stakeReward
    rw [← hnodes, map_map, sum_eq_zero, sub_zero]
    rintro _ hx
    obtain ⟨node, hnode, rfl⟩ := mem_map.mp hx
    have hzero : stakeAbove minStake node.toCouncilNode = 0 := stakeAbove_eq_zero (hnone node hnode)
    simp [nodeShare, share, hzero]

theorem stakeOf_le_sum (s : CouncilLists) (a : Address) :
    s.stakeOf a ≤ (s.entries.map (·.stakingAmount.toNat)).sum :=
  (filter_sublist.map _).sum_le_sum fun _ _ => Nat.zero_le _

/-- Two nodes with one reward address, and a third. -/
theorem calcShares_fair_three :
    let s : CouncilLists := ⟨[1, 2, 3], [11, 12, 13], [7, 7, 8], [10, 5, 4]⟩
    ∃ c shares remaining, getConsolidatedStakingInfo s = .ok c ∧
      calcShares (some (s.forRewards 0 0)) 100 3 = .ok (shares, remaining) ∧
      FairShares s 3 100 c shares remaining := by
  intro s
  apply calcShares_fair s 0 0 3 100 ⟨rfl, rfl, rfl⟩ (by decide)
  · intro a
    have hle := stakeOf_le_sum s a
    have hsum : (s.entries.map (·.stakingAmount.toNat)).sum = 19 := by decide
    omega
  · decide

def crowd (nodes : List Address) (amount : UInt64) : CouncilLists :=
  ⟨nodes, nodes, nodes.map fun _ => 7, nodes.map fun _ => amount⟩

theorem crowd_aligned (nodes : List Address) (amount : UInt64) : (crowd nodes amount).Aligned := by
  constructor <;> simp [crowd]

theorem crowd_entries (nodes : List Address) (amount : UInt64) :
    (crowd nodes amount).entries = nodes.map fun a => ⟨a, a, 7, amount⟩ := by
  induction nodes with
  | nil => rfl
  | cons a nodes ih =>
    exact congrArg _ ih

theorem crowd_filter (nodes : List Address) (amount : UInt64) :
    (crowd nodes amount).entries.filter (·.rewardAddr = 7) =
      nodes.map fun a => ⟨a, a, 7, amount⟩ := by
  rw [crowd_entries, filter_eq_self]
  intro e he
  obtain ⟨a, -, rfl⟩ := mem_map.mp he
  rfl

theorem crowd_sum (nodes : List Address) (amount : UInt64) :
    ((crowd nodes amount).entries.map (·.stakingAmount.toNat)).sum =
      nodes.length * amount.toNat := by
  have hconst : (nodes.map fun a => (⟨a, a, 7, amount⟩ : CouncilEntry)).map
      (·.stakingAmount.toNat) = replicate nodes.length amount.toNat := by
    rw [map_map]
    exact @List.map_const' _ _ nodes amount.toNat
  rw [crowd_entries, hconst, sum_replicate_nat]

theorem crowd_stakeOf (nodes : List Address) (amount : UInt64) :
    (crowd nodes amount).stakeOf 7 = nodes.length * amount.toNat := by
  rw [CouncilLists.stakeOf, crowd_filter, ← crowd_entries, crowd_sum]

theorem crowd_amount {nodes : List Address} {amount amount' : UInt64}
    (h : amount' ∈ (crowd nodes amount).councilStakingAmounts) : amount' = amount := by
  obtain ⟨a, -, rfl⟩ := mem_map.mp h
  rfl

theorem crowd_node {nodes : List Address} (hnodes : nodes ≠ []) (amount : UInt64) :
    ∃ c, getConsolidatedStakingInfo (crowd nodes amount) = .ok c ∧
      ∃ node ∈ c.nodes, node.rewardAddr = 7 ∧
        node.stakingAmount.toNat = nodes.length * amount.toNat % 2 ^ 64 := by
  obtain ⟨c, hc, hindexed⟩ := (crowd_aligned nodes amount).consolidated
  have hsame : c.nodes.map (·.toCouncilNode) = (crowd nodes amount).rewardNodes := hindexed.nodes
  have hspec := (crowd nodes amount).rewardNodes_spec
  have hmem : (7 : Address) ∈ c.nodes.map (·.rewardAddr) := by
    rw [← map_rewardAddr_toCouncilNode, hsame, hspec.mem_iff,
      (crowd_aligned nodes amount).map_rewardAddr]
    obtain ⟨a, ha⟩ := exists_mem_of_ne_nil nodes hnodes
    exact mem_map.mpr ⟨a, ha, rfl⟩
  obtain ⟨node, hnode, haddr⟩ := mem_map.mp hmem
  have hamount := hspec.amount node.toCouncilNode (hindexed.mem_rewardNodes hnode)
  rw [← CouncilLists.stakeOf_eq, show node.toCouncilNode.rewardAddr = 7 from haddr,
    crowd_stakeOf] at hamount
  exact ⟨_, hc, node, hnode, haddr, hamount⟩

/-- The node of a crowd of more than one hundred and eighty million has lost a range of words. -/
theorem crowd_wraps :
    ∃ s : CouncilLists, s = crowd (List.replicate 184467441 1) 100000000000 ∧ s.Aligned ∧
      (∀ amount ∈ s.councilStakingAmounts, amount ≤ 100000000000) ∧
      s.stakeOf 7 = 18446744100000000000 ∧
      ∃ c, getConsolidatedStakingInfo s = .ok c ∧
        ∃ node ∈ c.nodes, node.rewardAddr = 7 ∧ node.stakingAmount.toNat = 26290448384 := by
  refine ⟨_, rfl, crowd_aligned _ _, ?_, ?_, ?_⟩
  · intro amount hamount
    exact UInt64.le_of_eq (crowd_amount hamount)
  · rw [crowd_stakeOf, length_replicate]
    rfl
  · have hne : replicate 184467441 (1 : Address) ≠ [] := by
      decide
    obtain ⟨c, hc, node, hnode, haddr, hamount⟩ := crowd_node hne 100000000000
    rw [length_replicate] at hamount
    exact ⟨c, hc, node, hnode, haddr, hamount⟩

variable {F : Type} {fl : FloatOps F}

/-- Sums of integers up to `2 ^ 53` are exact in `float64`; `isNat` tells the integers. -/
structure ExactSums (fl : FloatOps F) (isNat : F → ℕ → Prop) : Prop where
  unique : ∀ {x m n}, isNat x m → isNat x n → m = n
  zero : isNat fl.zero 0
  ofUint64 : ∀ {n}, n ≤ 2 ^ 53 → isNat (fl.ofUint64 n) n
  add : ∀ {x y m n}, isNat x m → isNat y n → m + n ≤ 2 ^ 53 → isNat (fl.add x y) (m + n)

/-- One round of the loop over the reward addresses. -/
def addStake (fl : FloatOps F) (amounts : List ℕ) (rewardAddr : Address) (amount : F)
    (r : Address × ℕ) : Except GoPanic F :=
  if r.1 = rewardAddr then
    match amounts[r.2]? with
    | none => .error .indexOutOfRange
    | some staked => .ok (fl.add amount (fl.ofUint64 staked))
  else .ok amount

theorem foldlM_addStake (fl : FloatOps F) (rewardAddr : Address) (entries : List CouncilEntry)
    (before : List ℕ) (x : F) :
    ((entries.map (·.rewardAddr)).zipIdx before.length).foldlM
        (addStake fl (before ++ entries.map (·.stakingAmount.toNat)) rewardAddr) x =
      .ok ((entries.filter (·.rewardAddr = rewardAddr)).foldl
        (fun x e => fl.add x (fl.ofUint64 e.stakingAmount.toNat)) x) := by
  induction entries generalizing before x with
  | nil => rfl
  | cons e entries ih =>
    have hat : (before ++ e.stakingAmount.toNat :: entries.map (·.stakingAmount.toNat))[before.length]?
        = some e.stakingAmount.toNat := by simp
    have htail := fun x => ih (before ++ [e.stakingAmount.toNat]) x
    rw [length_append, append_assoc] at htail
    rw [map_cons, map_cons, zipIdx_cons, foldlM_cons, filter_cons, addStake]
    by_cases h : e.rewardAddr = rewardAddr
    · rw [if_pos h, hat, if_pos (decide_eq_true h)]
      exact htail _
    · rw [if_neg h, if_neg (by simpa using h)]
      exact htail _

theorem rewardStake_eq {s : CouncilLists} (haligned : s.Aligned) (fl : FloatOps F) (useGini : Bool)
    (rewardAddr : Address) :
    rewardStake fl (s.forConsensus useGini) rewardAddr =
      .ok ((s.entries.filter (·.rewardAddr = rewardAddr)).foldl
        (fun x e => fl.add x (fl.ofUint64 e.stakingAmount.toNat)) fl.zero) := by
  have hloop := foldlM_addStake fl rewardAddr s.entries [] fl.zero
  rw [haligned.map_entry_rewardAddr, haligned.map_stakingAmount] at hloop
  exact hloop

theorem exact_foldl {isNat : F → ℕ → Prop} (h : ExactSums fl isNat) {entries : List CouncilEntry}
    {x : F} {n : ℕ} (hx : isNat x n)
    (hle : n + (entries.map (·.stakingAmount.toNat)).sum ≤ 2 ^ 53) :
    isNat (entries.foldl (fun x e => fl.add x (fl.ofUint64 e.stakingAmount.toNat)) x)
      (n + (entries.map (·.stakingAmount.toNat)).sum) := by
  induction entries generalizing x n with
  | nil => exact hx
  | cons e entries ih =>
    rw [map_cons, sum_cons] at hle ⊢
    rw [foldl_cons, ← Nat.add_assoc]
    apply ih
    · exact h.add hx (h.ofUint64 (by omega)) (by omega)
    · omega

/-- What a validator stakes by the lists is what its node stakes. -/
def StakeAgrees (isNat : F → ℕ → Prop) (s : CouncilLists) (c : ConsolidatedStakingInfo)
    (val : Validator) (stake : Validator × F) : Prop :=
  stake.1.address = val.address ∧
    match c.getConsolidatedNode val.address with
    | some node => val.address ∈ s.councilNodeAddrs ∧ isNat stake.2 node.stakingAmount.toNat
    | none => val.address ∉ s.councilNodeAddrs ∧ isNat stake.2 0

theorem getConsolidatedNode_of_mem {s : CouncilLists} {c : Consolidation}
    (hindexed : Indexed c s.entries) (haligned : s.Aligned)
    (hdistinct : s.councilNodeAddrs.Nodup) (hfit : ∀ a, s.stakeOf a < 2 ^ 64) {e : CouncilEntry}
    (he : e ∈ s.entries) : ∃ node, c.getConsolidatedNode e.nodeAddr = some node ∧
      node.stakingAmount.toNat = s.stakeOf e.rewardAddr := by
  cases hidx : c.nodeIndex e.nodeAddr with
  | none => exact absurd (mem_map_of_mem he) (hindexed.nodeIndex_none _ hidx)
  | some i =>
    obtain ⟨node, hi, e', he', haddr, hreward⟩ := hindexed.nodeIndex_some _ i hidx
    rw [← haligned.map_nodeAddr] at hdistinct
    obtain rfl : e' = e := inj_on_of_nodup_map hdistinct he' he haddr
    refine ⟨node, ?_, ?_⟩
    · rw [ConsolidatedStakingInfo.getConsolidatedNode, hidx]
      exact hi
    · rw [← hreward]
      exact amount_of_fits hfit (hindexed.mem_rewardNodes (mem_of_getElem? hi))

theorem stakingAmountOf_agrees {s : CouncilLists} {c : Consolidation} {isNat : F → ℕ → Prop}
    (hfl : ExactSums fl isNat) (hindexed : Indexed c s.entries) (haligned : s.Aligned)
    (hdistinct : s.councilNodeAddrs.Nodup) (hfit : ∀ a, s.stakeOf a ≤ 2 ^ 53) (useGini : Bool)
    (val : Validator) : ∃ stake, stakingAmountOf fl (s.forConsensus useGini) val = .ok stake ∧
      StakeAgrees isNat s c.toConsolidatedStakingInfo val stake := by
  have hword : ∀ a, s.stakeOf a < 2 ^ 64 := fun a => (hfit a).trans_lt (by decide)
  unfold stakingAmountOf StakeAgrees
  cases hidx : (s.forConsensus useGini).getIndexByNodeAddress val.address with
  | none =>
    have hnotMem : val.address ∉ s.councilNodeAddrs := by
      intro hmem
      simpa using findIdx?_eq_none_iff.mp hidx val.address hmem
    have hnone : c.getConsolidatedNode val.address = none := by
      cases hi : c.nodeIndex val.address with
      | none => rw [ConsolidatedStakingInfo.getConsolidatedNode, hi]
      | some i =>
        obtain ⟨-, -, e, he, haddr, -⟩ := hindexed.nodeIndex_some _ i hi
        rw [← haligned.map_nodeAddr, ← haddr] at hnotMem
        exact absurd (mem_map_of_mem he) hnotMem
    refine ⟨_, rfl, rfl, ?_⟩
    rw [hnone]
    exact ⟨hnotMem, hfl.zero⟩
  | some cIdx =>
    obtain ⟨hlt, haddr, -⟩ := findIdx?_eq_some_iff_getElem.mp hidx
    have hat : s.councilNodeAddrs[cIdx]? = some val.address := by
      rw [← of_decide_eq_true haddr]
      exact getElem?_eq_getElem hlt
    obtain ⟨e, he, heq, hreward⟩ := haligned.exists_entry hat
    obtain ⟨node, hnode, hamount⟩ :=
      getConsolidatedNode_of_mem hindexed haligned hdistinct hword he
    rw [heq] at hnode
    have hsum := exact_foldl hfl hfl.zero ((Nat.zero_add _).le.trans (hfit e.rewardAddr))
    rw [Nat.zero_add] at hsum
    have hreward' : (s.forConsensus useGini).councilRewardAddrs[cIdx]? = some e.rewardAddr := hreward
    dsimp only
    rw [hreward', hnode]
    dsimp only
    rw [rewardStake_eq haligned]
    refine ⟨_, rfl, rfl, mem_of_getElem? hat, ?_⟩
    rw [hamount]
    exact hsum

/-- Consensus and rewards agree on stakes that sum up to at most `2 ^ 53` for an address. -/
theorem stakingAmounts_agree {F : Type} (fl : FloatOps F) (isNat : F → ℕ → Prop)
    (hfl : ExactSums fl isNat) (s : CouncilLists) (useGini : Bool) (validators : List Validator)
    (haligned : s.Aligned) (hdistinct : s.councilNodeAddrs.Nodup)
    (hfit : ∀ a, s.stakeOf a ≤ 2 ^ 53) :
    ∃ c stakes, getConsolidatedStakingInfo s = .ok c ∧
      getStakingAmountsOfValidators fl (s.forConsensus useGini) validators = .ok stakes ∧
      List.Forall₂ (StakeAgrees isNat s c) validators stakes := by
  obtain ⟨c, hc, hindexed⟩ := haligned.consolidated
  have hone := stakingAmountOf_agrees hfl hindexed haligned hdistinct hfit useGini
  suffices h : ∃ stakes, validators.mapM (stakingAmountOf fl (s.forConsensus useGini)) =
      .ok stakes ∧ List.Forall₂ (StakeAgrees isNat s c.toConsolidatedStakingInfo) validators stakes by
    obtain ⟨stakes, hstakes, hagree⟩ := h
    exact ⟨_, stakes, hc, hstakes, hagree⟩
  induction validators with
  | nil => exact ⟨[], rfl, .nil⟩
  | cons val validators ih =>
    obtain ⟨stake, hstake, hval⟩ := hone val
    obtain ⟨stakes, hstakes, hrest⟩ := ih
    refine ⟨stake :: stakes, ?_, .cons hval hrest⟩
    rw [mapM_cons, hstake, hstakes]
    rfl

/-- Integers are summed up with rounding to the nearest `float64`. -/
def roundedSums : FloatOps ℕ :=
  { FloatOps.nat with
    ofUint64 := nearestFloat64
    add := fun x y => nearestFloat64 (x + y) }

theorem nearestFloat64_of_le {n : ℕ} (h : n ≤ 2 ^ 53) : nearestFloat64 n = n := by
  rcases h.eq_or_lt with rfl | hlt
  · decide +kernel
  · exact if_pos hlt

theorem exactSums_roundedSums : ExactSums roundedSums (· = ·) where
  unique := by
    rintro x m n rfl rfl
    rfl
  zero := rfl
  ofUint64 := nearestFloat64_of_le
  add := by
    rintro x y m n rfl rfl h
    exact nearestFloat64_of_le h

/-- Two nodes with one reward address, and somebody who is no council node. -/
theorem stakingAmounts_agree_three :
    let s : CouncilLists := ⟨[1, 2, 3], [11, 12, 13], [7, 7, 8], [10, 5, 4]⟩
    ∃ c stakes, getConsolidatedStakingInfo s = .ok c ∧
      getStakingAmountsOfValidators roundedSums (s.forConsensus false) [⟨2, 0, 0, 0⟩, ⟨9, 0, 0, 0⟩] =
        .ok stakes ∧
      List.Forall₂ (StakeAgrees (· = ·) s c) [⟨2, 0, 0, 0⟩, ⟨9, 0, 0, 0⟩] stakes := by
  intro s
  apply stakingAmounts_agree roundedSums _ exactSums_roundedSums s false _ ⟨rfl, rfl, rfl⟩
    (by decide)
  intro a
  have hle := stakeOf_le_sum s a
  have hsum : (s.entries.map (·.stakingAmount.toNat)).sum = 19 := by decide
  omega

theorem iterate_roundedSums {amount n : ℕ} (h : n * amount ≤ 2 ^ 53) :
    (fun x => nearestFloat64 (x + nearestFloat64 amount))^[n] 0 = n * amount := by
  induction n with
  | zero => simp
  | succ n ih =>
    rw [Nat.add_one_mul] at h
    rw [iterate_succ_apply', ih (by omega), nearestFloat64_of_le (n := amount) (by omega),
      nearestFloat64_of_le h, Nat.add_one_mul]

def ninetyThousand : List Address := 0 :: (List.range 90072).map fun i => BitVec.ofNat 160 (i + 1)

theorem nodup_ninetyThousand : ninetyThousand.Nodup := by
  have htoNat : ∀ i ∈ range 90072, (BitVec.ofNat 160 (i + 1)).toNat = i + 1 := by
    intro i hi
    rw [mem_range] at hi
    rw [BitVec.toNat_ofNat]
    omega
  unfold ninetyThousand
  rw [nodup_cons]
  constructor
  · intro hmem
    obtain ⟨i, hi, heq⟩ := mem_map.mp hmem
    have hzero := htoNat i hi
    rw [heq] at hzero
    cases hzero
  · apply List.Nodup.map_on ?_ nodup_range
    intro i hi j hj heq
    have hsame := htoNat i hi
    rw [heq, htoNat j hj] at hsame
    omega

theorem head?_ninetyThousand : ninetyThousand.head? = some 0 := by
  rw [ninetyThousand, head?_cons]

theorem length_ninetyThousand : ninetyThousand.length = 90073 := by
  rw [ninetyThousand, length_cons, length_map, length_range]

theorem stakingAmountOf_crowd (fl : FloatOps F) {nodes : List Address} (amount : UInt64)
    {val : Validator} (hval : nodes.head? = some val.address) :
    stakingAmountOf fl ((crowd nodes amount).forConsensus false) val =
      .ok ({ val with rewardAddress := 7 },
        (fun x => fl.add x (fl.ofUint64 amount.toNat))^[nodes.length] fl.zero) := by
  obtain ⟨rest, rfl⟩ := head?_eq_some_iff.mp hval
  have hidx : ((crowd (val.address :: rest) amount).forConsensus false).getIndexByNodeAddress
      val.address = some 0 :=
    findIdx?_cons.trans (if_pos (decide_eq_true rfl))
  unfold stakingAmountOf
  rw [hidx]
  dsimp only
  rw [show ((crowd (val.address :: rest) amount).forConsensus false).councilRewardAddrs[0]? =
    some 7 from rfl]
  dsimp only
  rw [rewardStake_eq (crowd_aligned _ _), crowd_filter, foldl_map]
  have hconst := foldl_const (fun x => fl.add x (fl.ofUint64 amount.toNat)) fl.zero
    (val.address :: rest)
  exact congrArg (fun x => Except.ok (_, x)) hconst

theorem stakingAmountOf_crowd_rounded {nodes : List Address} {amount : UInt64} {n : ℕ}
    {val : Validator} (hval : nodes.head? = some val.address) (hlen : nodes.length = n + 2)
    (h : n * amount.toNat ≤ 2 ^ 53) :
    stakingAmountOf roundedSums ((crowd nodes amount).forConsensus false) val =
      .ok ({ val with rewardAddress := 7 },
        nearestFloat64 (nearestFloat64 (n * amount.toNat + nearestFloat64 amount.toNat) +
          nearestFloat64 amount.toNat)) := by
  rw [stakingAmountOf_crowd roundedSums amount hval, hlen, iterate_succ_apply', iterate_succ_apply',
    ← iterate_roundedSums h]
  rfl

/-- Ninety thousand nodes stake more than `2 ^ 53`: consensus and rewards differ by one. -/
theorem crowd_rounds :
    ∃ s : CouncilLists, s = crowd ninetyThousand 99999999999 ∧ s.Aligned ∧
      s.councilNodeAddrs.Nodup ∧ (∀ amount ∈ s.councilStakingAmounts, amount ≤ 100000000000) ∧
      getStakingAmountsOfValidators roundedSums (s.forConsensus false) [⟨0, 0, 0, 0⟩] =
        .ok [(⟨0, 7, 0, 0⟩, 9007299999909928)] ∧
      ∃ c node, getConsolidatedStakingInfo s = .ok c ∧ c.getConsolidatedNode 0 = some node ∧
        node.stakingAmount.toNat = 9007299999909927 := by
  have haligned := crowd_aligned ninetyThousand 99999999999
  obtain ⟨c, hc, hindexed⟩ := haligned.consolidated
  have hmem : (⟨0, 0, 7, 99999999999⟩ : CouncilEntry) ∈ (crowd ninetyThousand 99999999999).entries := by
    rw [crowd_entries]
    exact mem_map.mpr ⟨0, mem_cons_self, rfl⟩
  have hfit : ∀ a, (crowd ninetyThousand 99999999999).stakeOf a < 2 ^ 64 := by
    intro a
    have hle := stakeOf_le_sum (crowd ninetyThousand 99999999999) a
    rw [crowd_sum, length_ninetyThousand] at hle
    exact hle.trans_lt (by decide)
  obtain ⟨node, hnode, hamount⟩ :=
    getConsolidatedNode_of_mem hindexed haligned nodup_ninetyThousand hfit hmem
  rw [crowd_stakeOf, length_ninetyThousand] at hamount
  refine ⟨_, rfl, haligned, nodup_ninetyThousand, ?_, ?_, _, node, hc, hnode, hamount⟩
  · intro amount hin
    rw [crowd_amount hin]
    decide
  · -- ninety thousand amounts are exact, two more are not
    have hstake := @stakingAmountOf_crowd_rounded ninetyThousand 99999999999 90071 ⟨0, 0, 0, 0⟩
      head?_ninetyThousand length_ninetyThousand (by decide)
    rw [getStakingAmountsOfValidators, mapM_cons, hstake]
    rfl

end Kaia.Reward
