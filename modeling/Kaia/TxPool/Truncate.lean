import Mathlib
import Kaia.TxPool.Priced

/-! # Truncation of the pending transactions

When too many transactions are pending, the accounts that are not local and have the most are cut
down together, until the limit is kept or they are down to the allowance of an account.
-/

namespace Kaia.TxPool

open Foundation List

/-- `txList`: the transactions of an account by nonce. -/
@[ext] structure TxList where
  txs : List PoolTx
  sorted : txs.Pairwise fun a b => a.nonce < b.nonce

namespace TxList

variable (l : TxList)

def len : ℕ := l.txs.length

def cap (threshold : ℕ) : TxList :=
  ⟨l.txs.take threshold, l.sorted.sublist (List.take_sublist _ _)⟩

variable {l}

theorem len_cap (n : ℕ) : (l.cap n).len = min n l.len := List.length_take

theorem cap_of_le {n : ℕ} (h : l.len ≤ n) : l.cap n = l := TxList.ext (List.take_of_length_le h)

theorem cap_cap {m n : ℕ} (h : m ≤ n) : (l.cap n).cap m = l.cap m :=
  TxList.ext (take_take.trans (by rw [Nat.min_eq_left h]; rfl))

end TxList

/-- The map of the pending lists, with its keys in the order in which they are visited. -/
structure PendingLists where
  keys : List Address
  nodup : keys.Nodup
  lists : Address → TxList

/-- What the loops change: the lists, and the number of all pending transactions. -/
structure Cut where
  lists : Address → TxList
  pending : ℕ

namespace Cut

variable (limit threshold : ℕ) (offenders : List Address) (c : Cut) (a : Address)

def drop : Cut :=
  ⟨Function.update c.lists a ((c.lists a).cap ((c.lists a).len - 1)), c.pending - 1⟩

def round : Cut := offenders.foldl drop c

variable {c a}

theorem drop_self : (c.drop a).lists a = (c.lists a).cap ((c.lists a).len - 1) :=
  Function.update_self _ _ _

theorem drop_of_ne {b : Address} (h : b ≠ a) : (c.drop a).lists b = c.lists b :=
  Function.update_of_ne h _ _

theorem pending_round : (c.round offenders).pending = c.pending - offenders.length := by
  induction offenders generalizing c with
  | nil => rfl
  | cons a offenders ih => exact ih.trans ((Nat.sub_sub _ _ _).trans (by rw [Nat.add_comm]; rfl))

/-- Reduce all offenders until below the limit or at the threshold. -/
def reduce (c : Cut) : Cut :=
  if _h : limit < c.pending ∧ ∃ last ∈ offenders.getLast?, threshold < (c.lists last).len then
    reduce (c.round offenders)
  else c
termination_by c.pending
decreasing_by
  obtain ⟨last, hlast, -⟩ := _h.2
  have hpos := List.length_pos_of_mem (List.mem_of_getLast? hlast)
  rw [pending_round]
  omega

end Cut

/-- What the loop over the spammers changes. -/
structure Spree where
  cut : Cut
  spammers : List (Address × ℕ)
  offenders : List Address

def outranks (a b : Address × ℕ) : Bool := b.2 < a.2

/-- The loop that penalizes the largest transactors first: those before are reduced to the next
one. -/
def Spree.penalize (limit : ℕ) (s : Spree) : Spree :=
  if limit < s.cut.pending then
    match _h : Heap.pop outranks s.spammers with
    | none => s
    | some (offender, spammers) =>
      penalize limit ⟨s.cut.reduce limit (s.cut.lists offender.1).len s.offenders, spammers,
        s.offenders ++ [offender.1]⟩
  else s
termination_by s.spammers.length
decreasing_by
  rw [← (Heap.pop_perm _h).length_eq]
  exact Nat.lt_succ_self _

namespace PendingLists

variable (m : PendingLists) (locals : List Address) (execSlotsAccount execSlotsAll : ℕ)

def total (lists : Address → TxList) : ℕ := (m.keys.map fun a => (lists a).len).sum

def highRollers : List Address :=
  m.keys.filter fun a => a ∉ locals ∧ execSlotsAccount < (m.lists a).len

def spammers : List (Address × ℕ) :=
  ((m.highRollers locals execSlotsAccount).map fun a => (a, (m.lists a).len)).foldl
    (Heap.push outranks) []

/-- The end of the promotion, from the point where the pending transactions are counted. -/
def truncatePending : Cut :=
  let start : Cut := ⟨m.lists, m.total m.lists⟩
  if execSlotsAll < start.pending then
    let s := Spree.penalize execSlotsAll ⟨start, m.spammers locals execSlotsAccount, []⟩
    s.cut.reduce execSlotsAll execSlotsAccount s.offenders
  else start

/-- The limit is kept or all are within their allowance; local and small accounts are spared, and
the others lose their highest nonces down to one level, not below their allowance. -/
structure Fair (lists : Address → TxList) : Prop where
  limited : m.total lists ≤ execSlotsAll ∨
    ∀ a ∈ m.keys, a ∉ locals → (lists a).len ≤ execSlotsAccount
  spared : ∀ a, a ∈ locals ∨ (m.lists a).len ≤ execSlotsAccount → lists a = m.lists a
  front : ∀ a, (lists a).txs <+: (m.lists a).txs
  allowance : ∀ a, lists a ≠ m.lists a → execSlotsAccount ≤ (lists a).len
  level : ∃ n, (∀ a, lists a ≠ m.lists a → (lists a).len = n) ∧
    ∀ a ∈ m.keys, a ∉ locals → (lists a).len ≤ n

variable {m locals execSlotsAccount execSlotsAll} {c : Cut} {offenders : List Address} {a : Address}
  {height : ℕ}

theorem mem_highRollers : a ∈ m.highRollers locals execSlotsAccount ↔
    a ∈ m.keys ∧ a ∉ locals ∧ execSlotsAccount < (m.lists a).len := by
  rw [highRollers, mem_filter, decide_eq_true_eq]

theorem len_le_total (ha : a ∈ m.keys) : (m.lists a).len ≤ m.total m.lists :=
  le_sum_of_mem (mem_map_of_mem ha)

theorem total_drop (ha : a ∈ m.keys) (hpos : 0 < (c.lists a).len) :
    m.total (c.drop a).lists + 1 = m.total c.lists := by
  obtain ⟨before, after, hkeys⟩ := append_of_mem ha
  have hnodup := m.nodup
  rw [hkeys, nodup_middle, nodup_cons, mem_append, not_or] at hnodup
  have hsame : ∀ l : List Address, a ∉ l →
      (l.map fun b => ((c.drop a).lists b).len) = l.map fun b => (c.lists b).len := by
    intro l hl
    apply map_congr_left
    intro b hb
    rw [Cut.drop_of_ne (ne_of_mem_of_not_mem hb hl)]
  have hlen : ((c.drop a).lists a).len + 1 = (c.lists a).len := by
    rw [Cut.drop_self, TxList.len_cap]
    omega
  simp only [total, hkeys, map_append, map_cons, sum_append, sum_cons,
    hsame _ hnodup.1.1, hsame _ hnodup.1.2]
  omega

theorem lists_round (hnodup : offenders.Nodup) (hkeys : ∀ a ∈ offenders, a ∈ m.keys)
    (hpos : ∀ a ∈ offenders, 0 < (c.lists a).len) (hpending : c.pending = m.total c.lists) :
    (∀ a, (c.round offenders).lists a =
        if a ∈ offenders then (c.lists a).cap ((c.lists a).len - 1) else c.lists a) ∧
      (c.round offenders).pending = m.total (c.round offenders).lists := by
  induction offenders generalizing c with
  | nil => exact ⟨fun a => (if_neg not_mem_nil).symm, hpending⟩
  | cons b offenders ih =>
    rw [nodup_cons] at hnodup
    rw [forall_mem_cons] at hkeys hpos
    have hcount : (c.drop b).pending = m.total (c.drop b).lists := by
      have htotal := total_drop hkeys.1 hpos.1
      exact Nat.sub_eq_of_eq_add (hpending.trans htotal.symm)
    have hrest : ∀ a ∈ offenders, 0 < ((c.drop b).lists a).len := by
      intro a ha
      rw [Cut.drop_of_ne (ne_of_mem_of_not_mem ha hnodup.1)]
      exact hpos.2 a ha
    obtain ⟨hlists, htotal⟩ := ih hnodup.2 hkeys.2 hrest hcount
    refine ⟨fun a => ?_, htotal⟩
    refine (hlists a).trans ?_
    by_cases hab : a = b
    · rw [hab, if_neg hnodup.1, if_pos mem_cons_self, Cut.drop_self]
    · simp only [mem_cons, hab, false_or, Cut.drop_of_ne hab]

/-- The lists of the offenders are cut to one height, and the pending transactions are counted. -/
structure Level (m : PendingLists) (offenders : List Address) (height : ℕ) (c : Cut) : Prop where
  lists : ∀ a, c.lists a = if a ∈ offenders then (m.lists a).cap height else m.lists a
  pending : c.pending = m.total c.lists

namespace Level

theorem len_eq (h : Level m offenders height c) (ha : a ∈ offenders)
    (hle : height ≤ (m.lists a).len) : (c.lists a).len = height := by
  rw [h.lists, if_pos ha, TxList.len_cap, Nat.min_eq_left hle]

theorem round (h : Level m offenders (height + 1) c) (hnodup : offenders.Nodup)
    (hkeys : ∀ a ∈ offenders, a ∈ m.keys)
    (hheight : ∀ a ∈ offenders, height + 1 ≤ (m.lists a).len) :
    Level m offenders height (c.round offenders) := by
  have hlen : ∀ a ∈ offenders, (c.lists a).len = height + 1 :=
    fun a ha => h.len_eq ha (hheight a ha)
  obtain ⟨hlists, hpending⟩ := lists_round hnodup hkeys
    (fun a ha => by rw [hlen a ha]; exact Nat.succ_pos _) h.pending
  refine ⟨fun a => ?_, hpending⟩
  rw [hlists, h.lists]
  split
  · next ha =>
    have hcut := hlen a ha
    rw [h.lists, if_pos ha] at hcut
    rw [hcut]
    exact TxList.cap_cap (Nat.le_succ _)
  · rfl

theorem reduce {limit threshold : ℕ} (h : Level m offenders height c) (hnodup : offenders.Nodup)
    (hkeys : ∀ a ∈ offenders, a ∈ m.keys)
    (hheight : limit < c.pending → ∀ a ∈ offenders, height ≤ (m.lists a).len)
    (hthreshold : threshold ≤ height) :
    ∃ height' ≤ height, threshold ≤ height' ∧
      Level m offenders height' (c.reduce limit threshold offenders) ∧
      ((c.reduce limit threshold offenders).pending ≤ limit ∨ height' = threshold) ∧
      (c.pending ≤ limit → height' = height) := by
  fun_induction Cut.reduce limit threshold offenders c generalizing height with
  | case1 c hcond ih =>
    obtain ⟨hover, last, hlast, habove⟩ := hcond
    rw [h.len_eq (mem_of_getLast? hlast) (hheight hover _ (mem_of_getLast? hlast))] at habove
    obtain ⟨height, rfl⟩ := Nat.exists_eq_succ_of_ne_zero (by omega : height ≠ 0)
    obtain ⟨height', hle, hlow, hlevel, hdone, -⟩ := ih (h.round hnodup hkeys (hheight hover))
      (fun _ a ha => (Nat.le_succ _).trans (hheight hover a ha)) (by omega)
    exact ⟨height', by omega, hlow, hlevel, hdone, by omega⟩
  | case2 c hcond =>
    by_cases hover : limit < c.pending
    · -- without offenders any height will do
      refine ⟨threshold, hthreshold, le_rfl, ⟨fun a => ?_, h.pending⟩, .inr rfl, by omega⟩
      rw [h.lists]
      cases hlast : offenders.getLast? with
      | none => simp only [getLast?_eq_none_iff.mp hlast, not_mem_nil, if_false]
      | some last =>
        have hlen := h.len_eq (mem_of_getLast? hlast) (hheight hover _ (mem_of_getLast? hlast))
        have hle : ¬ threshold < (c.lists last).len := fun hlt => hcond ⟨hover, last, hlast, hlt⟩
        rw [show height = threshold by omega]
    · exact ⟨height, le_rfl, hthreshold, h, .inl (Nat.le_of_not_lt hover), fun _ => rfl⟩

theorem fair (h : Level m offenders height c)
    (hoffenders : ∀ a ∈ offenders, a ∈ m.highRollers locals execSlotsAccount)
    (hothers : ∀ a ∈ m.highRollers locals execSlotsAccount, a ∉ offenders →
      (m.lists a).len ≤ height)
    (hheight : execSlotsAccount ≤ height)
    (hlimited : c.pending ≤ execSlotsAll ∨ height = execSlotsAccount) :
    m.Fair locals execSlotsAccount execSlotsAll c.lists := by
  have hle : ∀ a ∈ m.keys, a ∉ locals → (c.lists a).len ≤ height := by
    intro a ha hlocal
    rw [h.lists]
    split
    · rw [TxList.len_cap]
      exact Nat.min_le_left _ _
    · next hnot =>
      by_cases hhigh : execSlotsAccount < (m.lists a).len
      · exact hothers a (mem_highRollers.mpr ⟨ha, hlocal, hhigh⟩) hnot
      · exact (Nat.le_of_not_lt hhigh).trans hheight
  have hcut : ∀ a, c.lists a ≠ m.lists a → (c.lists a).len = height := by
    intro a ha
    rw [h.lists] at ha
    split at ha
    · next hmem =>
      apply h.len_eq hmem
      by_contra hlt
      exact ha (TxList.cap_of_le (by omega))
    · exact absurd rfl ha
  constructor
  · rcases hlimited with hlimit | hlimit
    · exact .inl (h.pending ▸ hlimit)
    · exact .inr (hlimit ▸ hle)
  · intro a ha
    rw [h.lists, if_neg]
    intro hmem
    obtain ⟨-, hlocal, hhigh⟩ := mem_highRollers.mp (hoffenders a hmem)
    exact ha.elim hlocal hhigh.not_ge
  · intro a
    rw [h.lists]
    split
    · exact take_prefix _ _
    · exact prefix_rfl
  · exact fun a ha => (hcut a ha).symm ▸ hheight
  · exact ⟨height, hcut, hle⟩

end Level

/-- High rollers are level offenders, or wait in order, none longer than an offender's list. -/
structure Pursued (m : PendingLists) (locals : List Address) (execSlotsAccount execSlotsAll : ℕ)
    (s : Spree) (height : ℕ) : Prop where
  level : Level m s.offenders height s.cut
  perm : (s.offenders ++ s.spammers.map Prod.fst).Perm (m.highRollers locals execSlotsAccount)
  ordered : Heap.Ordered Prod.snd s.spammers s.spammers.length
  waiting : ∀ e ∈ s.spammers, e.2 = (m.lists e.1).len ∧ e.2 ≤ height
  allowance : execSlotsAccount ≤ height
  equal : execSlotsAll < s.cut.pending → ∀ a ∈ s.offenders, height ≤ (m.lists a).len

namespace Pursued

variable {s : Spree}

section

variable (h : Pursued m locals execSlotsAccount execSlotsAll s height)

include h

theorem nodup : (s.offenders ++ s.spammers.map Prod.fst).Nodup :=
  h.perm.nodup_iff.mpr (m.nodup.filter _)

theorem high
    (ha : a ∈ s.offenders ∨ a ∈ s.spammers.map Prod.fst) :
    a ∈ m.highRollers locals execSlotsAccount :=
  h.perm.mem_iff.mp (mem_append.mpr ha)

theorem keys : ∀ a ∈ s.offenders, a ∈ m.keys :=
  fun _ ha => (mem_highRollers.mp (h.high (.inl ha))).1

end

theorem agrees_outranks (l : List (Address × ℕ)) : Heap.Agrees outranks Prod.snd l :=
  fun _ _ _ _ => decide_eq_true_iff

theorem start : Pursued m locals execSlotsAccount execSlotsAll
    ⟨⟨m.lists, m.total m.lists⟩, m.spammers locals execSlotsAccount, []⟩
    (execSlotsAccount + m.total m.lists) := by
  have hperm : (m.spammers locals execSlotsAccount).Perm _ := Heap.foldl_push_perm _ _
  rw [append_nil] at hperm
  constructor
  · exact ⟨fun a => (if_neg not_mem_nil).symm, rfl⟩
  · have hmap := hperm.map Prod.fst
    rwa [map_map, map_id''] at hmap
    exact fun _ => rfl
  · exact Heap.foldl_push_ordered agrees_outranks _ _ fun _ _ hk => absurd hk (Nat.not_lt_zero _)
  · intro e he
    obtain ⟨a, ha, rfl⟩ := mem_map.mp (hperm.mem_iff.mp he)
    exact ⟨rfl, (len_le_total (mem_highRollers.mp ha).1).trans (Nat.le_add_left _ _)⟩
  · exact Nat.le_add_right _ _
  · exact fun _ a ha => absurd ha not_mem_nil

theorem step (h : Pursued m locals execSlotsAccount execSlotsAll s height)
    (hover : execSlotsAll < s.cut.pending) {offender : Address × ℕ} {spammers : List (Address × ℕ)}
    (hpop : Heap.pop outranks s.spammers = some (offender, spammers)) :
    ∃ height', Pursued m locals execSlotsAccount execSlotsAll
      ⟨s.cut.reduce execSlotsAll (s.cut.lists offender.1).len s.offenders, spammers,
        s.offenders ++ [offender.1]⟩ height' := by
  have hperm := Heap.pop_perm hpop
  obtain ⟨hlargest, hordered⟩ := Heap.pop_ordered (agrees_outranks _) h.ordered hpop
  have hmem := hperm.mem_iff.mp mem_cons_self
  obtain ⟨hlen, hle⟩ := h.waiting _ hmem
  have hnew : offender.1 ∉ s.offenders := fun hold =>
    (nodup_append.mp h.nodup).2.2 _ hold _ (mem_map_of_mem hmem) rfl
  have hthreshold : (s.cut.lists offender.1).len = offender.2 := by
    rw [h.level.lists, if_neg hnew, hlen]
  rw [hthreshold]
  obtain ⟨height', hle', hlow, hlevel, hdone, -⟩ :=
    h.level.reduce (nodup_append.mp h.nodup).1 h.keys h.equal hle
  refine ⟨height', ⟨fun a => ?_, hlevel.pending⟩, ?_, hordered, ?_, ?_, ?_⟩
  · rw [hlevel.lists]
    by_cases ha : a = offender.1
    · rw [ha, if_neg hnew, if_pos (by simp), TxList.cap_of_le (hlen ▸ hlow)]
    · simp only [mem_append, mem_singleton, ha, or_false]
  · rw [append_assoc]
    exact ((hperm.map Prod.fst).append_left _).trans h.perm
  · intro e he
    exact ⟨(h.waiting e (hperm.mem_iff.mp (mem_cons_of_mem _ he))).1, (hlargest e he).trans hlow⟩
  · have := (mem_highRollers.mp (h.high (.inr (mem_map_of_mem hmem)))).2.2
    omega
  · intro hstill a ha
    have hheight : height' = offender.2 := hdone.resolve_left (Nat.not_le_of_lt hstill)
    rcases mem_append.mp ha with ha | ha
    · exact hle'.trans (h.equal hover a ha)
    · rw [mem_singleton.mp ha, hheight, hlen]

theorem penalize (h : Pursued m locals execSlotsAccount execSlotsAll s height) :
    (∃ height', Pursued m locals execSlotsAccount execSlotsAll (s.penalize execSlotsAll) height') ∧
      ((s.penalize execSlotsAll).cut.pending ≤ execSlotsAll ∨
        (s.penalize execSlotsAll).spammers = []) := by
  fun_induction Spree.penalize execSlotsAll s generalizing height with
  | case1 s hover hpop => exact ⟨⟨height, h⟩, .inr (Heap.pop_eq_none_iff.mp hpop)⟩
  | case2 s hover offender spammers hpop ih =>
    obtain ⟨height', hstep⟩ := h.step hover hpop
    exact ih hstep
  | case3 s hover => exact ⟨⟨height, h⟩, .inl (Nat.le_of_not_lt hover)⟩

end Pursued

theorem truncatePending_fair (m : PendingLists) (locals : List Address)
    (execSlotsAccount execSlotsAll : ℕ) :
    m.Fair locals execSlotsAccount execSlotsAll
      (m.truncatePending locals execSlotsAccount execSlotsAll).lists := by
  have hstart : Pursued m locals execSlotsAccount execSlotsAll _ _ := Pursued.start
  rw [truncatePending]
  split
  · obtain ⟨⟨height, h⟩, hend⟩ := hstart.penalize
    obtain ⟨height', -, hlow, hlevel, hdone, hkept⟩ := h.level.reduce
      (nodup_append.mp h.nodup).1 h.keys h.equal h.allowance
    refine hlevel.fair (fun a ha => h.high (.inl ha)) ?_ hlow hdone
    intro a ha hnot
    obtain ⟨e, he, rfl⟩ := mem_map.mp
      ((mem_append.mp (h.perm.mem_iff.mpr ha)).resolve_left hnot)
    rcases hend with hend | hend
    · rw [hkept hend, ← (h.waiting e he).1]
      exact (h.waiting e he).2
    · rw [hend] at he
      cases he
  · next hlimit =>
    refine hstart.level.fair (fun a ha => absurd ha not_mem_nil) ?_ hstart.allowance
      (.inl (Nat.le_of_not_lt hlimit))
    exact fun a ha _ => (len_le_total (mem_highRollers.mp ha).1).trans (Nat.le_add_left _ _)

/-- Accounts with four, three and two transactions. -/
def crowded : PendingLists where
  keys := [1, 2, 3]
  nodup := by decide
  lists a :=
    ⟨(range (5 - a.toNat)).map fun i => ⟨a.setWidth 256, some a, i, 1, 1⟩,
      pairwise_map.mpr pairwise_lt_range⟩

theorem truncatePending_fair_crowded : crowded.total crowded.lists = 9 ∧
    crowded.Fair [3] 2 7 (crowded.truncatePending [3] 2 7).lists :=
  ⟨by decide, truncatePending_fair crowded [3] 2 7⟩

end PendingLists

end Kaia.TxPool
