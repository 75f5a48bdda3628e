import Mathlib
import Kaia.Foundation.HeapOrder
import Kaia.Istanbul.Types

/-! # The priced list of the transaction pool

The pool keeps a heap of its transactions, the cheapest first. One that leaves the pool stays in the
heap as a stale entry until it comes to the top or the heap is rebuilt. Stale entries are counted
right, as long as no transaction comes back while there is an old entry of it.
-/

namespace Kaia.TxPool

open Foundation List

/-- What the lists of the pool read of a transaction. There is no sender when it cannot be
derived. -/
structure PoolTx where
  hash : Hash
  sender : Option Address
  nonce : ℕ
  gasPrice : ℕ
  size : ℕ
  deriving DecidableEq

def txSlotSize : ℕ := 32 * 1024

def numSlots (tx : PoolTx) : ℕ := (tx.size + txSlotSize - 1) / txSlotSize

def containsTx (accounts : List Address) (tx : PoolTx) : Bool :=
  match tx.sender with
  | some addr => addr ∈ accounts
  | none => false

/-- `txLookup`: the map from hashes is the list of its values. -/
structure TxLookup where
  all : List PoolTx
  slots : ℤ

namespace TxLookup

variable (t : TxLookup)

def get (hash : Hash) : Option PoolTx := t.all.find? (·.hash = hash)

def add (tx : PoolTx) : TxLookup :=
  ⟨tx :: t.all.filter (·.hash ≠ tx.hash), t.slots + numSlots tx⟩

/-- `none` when there is no transaction whose slots could be given back. -/
def remove (hash : Hash) : Option TxLookup :=
  (t.get hash).map fun tx => ⟨t.all.filter (·.hash ≠ hash), t.slots - numSlots tx⟩

end TxLookup

/-- `priceHeap.Less`: the cheaper one, or the higher nonce at the same price. -/
def priceLess (a b : PoolTx) : Bool :=
  a.gasPrice < b.gasPrice ∨ a.gasPrice = b.gasPrice ∧ b.nonce < a.nonce

/-- `txPricedList`, with the lookup it points to. -/
structure TxPricedList where
  all : TxLookup
  items : List PoolTx
  stales : ℤ

namespace TxPricedList

variable (l : TxPricedList)

variable (tx : PoolTx)

def put : TxPricedList := { l with items := Heap.push priceLess l.items tx }

def removed (order : List PoolTx) : TxPricedList :=
  let stales := l.stales + 1
  if stales ≤ (l.items.length / 4 : ℕ) then { l with stales }
  else { l with stales := 0, items := Heap.init priceLess order }

def isStale (all : TxLookup) (tx : PoolTx) : Bool := (all.get tx.hash).isNone

/-- The loop of `Underpriced`. -/
def popStale (all : TxLookup) : ℕ → List PoolTx → ℤ → List PoolTx × ℤ
  | 0, items, stales => (items, stales)
  | fuel + 1, items, stales =>
    match items.head?, Heap.pop priceLess items with
    | some head, some (_, rest) =>
      if isStale all head then popStale all fuel rest (stales - 1) else (items, stales)
    | _, _ => (items, stales)

def underpriced (accounts : List Address) : TxPricedList × Bool :=
  if containsTx accounts tx then (l, false)
  else
    let (items, stales) := popStale l.all l.items.length l.items l.stales
    let l := { l with items, stales }
    match items.head? with
    | none => (l, false)
    | some cheapest => (l, tx.gasPrice ≤ cheapest.gasPrice)

/-- What the loop of `Discard` moves between. -/
structure Sweep where
  items : List PoolTx
  stales : ℤ
  drop : List PoolTx
  save : List PoolTx

/-- The loop of `Discard`. -/
def sweep (all : TxLookup) (accounts : List Address) : ℕ → ℤ → Sweep → Sweep
  | 0, _, s => s
  | fuel + 1, slots, s =>
    if slots ≤ 0 then s
    else match Heap.pop priceLess s.items with
      | none => s
      | some (tx, items) =>
        if isStale all tx then sweep all accounts fuel slots { s with items, stales := s.stales - 1 }
        else if containsTx accounts tx then
          sweep all accounts fuel slots { s with items, save := s.save ++ [tx] }
        else
          sweep all accounts fuel (slots - numSlots tx) { s with items, drop := s.drop ++ [tx] }

def discard (slots : ℤ) (accounts : List Address) : Except GoPanic (TxPricedList × List PoolTx) :=
  if slots < 0 then .error .makeSlice
  else
    let s := sweep l.all accounts l.items.length slots ⟨l.items, l.stales, [], []⟩
    .ok ({ l with items := s.save.foldl (Heap.push priceLess) s.items, stales := s.stales }, s.drop)

/-! ## What the pool does with the list -/

def add : TxPricedList :=
  if (l.all.get tx.hash).isSome then l else { l with all := l.all.add tx }.put tx

def remove (hash : Hash) (order : List PoolTx) : TxPricedList :=
  match l.all.remove hash with
  | some all => { l with all }.removed order
  | none => l

def makeRoom (slots : ℤ) (accounts : List Address) : Except GoPanic TxPricedList := do
  let (l, drop) ← l.discard slots accounts
  .ok { l with all := drop.foldl (fun all tx => (all.remove tx.hash).getD all) l.all }

def staleEntries : ℕ := l.items.countP (isStale l.all)

/-- No transaction comes back while there is an entry of it; lookups are in any order. -/
inductive Reached : TxPricedList → Prop
  | empty : Reached ⟨⟨[], 0⟩, [], 0⟩
  | add {l : TxPricedList} (tx : PoolTx) : Reached l → tx.hash ∉ l.items.map PoolTx.hash →
      Reached (l.add tx)
  | remove {l : TxPricedList} (hash : Hash) (order : List PoolTx) : Reached l →
      order.Perm (l.all.all.filter (·.hash ≠ hash)) → Reached (l.remove hash order)
  | underpriced {l : TxPricedList} (tx : PoolTx) (accounts : List Address) : Reached l →
      Reached (l.underpriced tx accounts).1
  | makeRoom {l l' : TxPricedList} (slots : ℤ) (accounts : List Address) : Reached l →
      l.makeRoom slots accounts = .ok l' → Reached l'

/-- Distinct remote transactions of the pool, none cheaper left out, and enough if there are. -/
structure Discards (slots : ℤ) (accounts : List Address) (drop : List PoolTx) : Prop where
  distinct : (drop.map PoolTx.hash).Nodup
  pooled : ∀ tx ∈ drop, tx ∈ l.all.all
  remote : ∀ tx ∈ drop, containsTx accounts tx = false
  sorted : drop.Pairwise fun a b => a.gasPrice ≤ b.gasPrice
  cheapest : ∀ tx ∈ drop, ∀ other ∈ l.all.all, containsTx accounts other = false → other ∉ drop →
    tx.gasPrice ≤ other.gasPrice
  enough : slots ≤ ((drop.map numSlots).sum : ℕ) ∨
    ∀ tx ∈ l.all.all, containsTx accounts tx = false → tx ∈ drop

/-! ## The order of prices -/

def priceKey : ℕᵒᵈ ×ₗ ℕ := toLex (OrderDual.toDual tx.gasPrice, tx.nonce)

variable {l} {all : TxLookup} {accounts : List Address} {tx other : PoolTx} {hash : Hash}
  {items order gone : List PoolTx}

theorem agrees_price (items : List PoolTx) : Heap.Agrees priceLess priceKey items := by
  intro a _ b _
  rw [priceLess, decide_eq_true_eq, priceKey, priceKey, Prod.Lex.toLex_lt_toLex]
  exact or_congr Iff.rfl (and_congr_left' ⟨fun h => h.symm, fun h => Eq.symm h⟩)

theorem gasPrice_le (h : priceKey other ≤ priceKey tx) : tx.gasPrice ≤ other.gasPrice := by
  rcases Prod.Lex.toLex_le_toLex.mp h with h | h
  · exact (OrderDual.toDual_lt_toDual.mp h).le
  · exact (OrderDual.toDual_inj.mp h.1).ge

/-! ## The invariant -/

/-- The heap holds the transactions of the pool and the entries `gone` of others, which are
counted. -/
structure Tracks (l : TxPricedList) (gone : List PoolTx) : Prop where
  perm : l.items.Perm (l.all.all ++ gone)
  distinct : ((l.all.all ++ gone).map PoolTx.hash).Nodup
  ordered : Heap.Ordered priceKey l.items l.items.length
  counted : l.stales = gone.length

theorem isStale_iff : isStale all tx = true ↔ tx.hash ∉ all.all.map PoolTx.hash := by
  simp [isStale, TxLookup.get]

theorem not_stale_of_mem (h : tx ∈ all.all) : isStale all tx = false := by
  rw [Bool.eq_false_iff, Ne, isStale_iff, not_not]
  exact mem_map_of_mem h

theorem filter_stale (h : ((all.all ++ gone).map PoolTx.hash).Nodup) :
    (all.all ++ gone).filter (isStale all) = gone ∧
      (all.all ++ gone).filter (!isStale all ·) = all.all := by
  rw [map_append, nodup_append] at h
  have hgone : ∀ tx ∈ gone, isStale all tx = true := by
    intro tx htx
    rw [isStale_iff]
    exact fun hmem => h.2.2 _ hmem _ (mem_map_of_mem htx) rfl
  have hall : ∀ tx ∈ all.all, isStale all tx = false := fun tx htx => not_stale_of_mem htx
  rw [filter_append, filter_append]
  constructor
  · rw [filter_eq_nil_iff.mpr (by simpa using hall), filter_eq_self.mpr hgone, nil_append]
  · rw [filter_eq_self.mpr (by simpa using hall),
      filter_eq_nil_iff.mpr (by simpa using hgone), append_nil]

theorem filter_hash_ne (h : tx.hash ∉ items.map PoolTx.hash) :
    items.filter (·.hash ≠ tx.hash) = items :=
  filter_eq_self.mpr fun other hmem => by
    simpa using fun heq : other.hash = tx.hash => h (heq ▸ mem_map_of_mem hmem)

theorem Tracks.add (h : Tracks l gone) (hfresh : tx.hash ∉ l.items.map PoolTx.hash) :
    Tracks (l.add tx) gone := by
  unfold TxPricedList.add
  split
  · exact h
  · have hnew : tx.hash ∉ (l.all.all ++ gone).map PoolTx.hash :=
      fun hmem => hfresh ((h.perm.map _).mem_iff.mpr hmem)
    have hall : (l.all.add tx).all = tx :: l.all.all := by
      rw [map_append, mem_append, not_or] at hnew
      rw [TxLookup.add, filter_hash_ne hnew.1]
    have hpush : (Heap.push priceLess l.items tx).Perm (tx :: l.items) := Heap.push_perm _ _
    constructor
    · rw [put, hall]
      exact hpush.trans (h.perm.cons tx)
    · rw [put, hall]
      exact nodup_cons.mpr ⟨hnew, h.distinct⟩
    · have hordered := Heap.push_ordered (agrees_price (l.items ++ [tx])) h.ordered
      rwa [put, hpush.length_eq]
    · exact h.counted

theorem perm_cons_filter (h : (items.map PoolTx.hash).Nodup) (hmem : tx ∈ items) :
    items.Perm (tx :: items.filter (·.hash ≠ tx.hash)) := by
  obtain ⟨before, after, rfl⟩ := append_of_mem hmem
  rw [map_append, map_cons, nodup_middle, nodup_cons, ← map_append] at h
  rw [filter_append, filter_cons_of_neg (by simp), ← filter_append, filter_hash_ne h.1]
  exact perm_middle

theorem Tracks.remove (h : Tracks l gone)
    (horder : order.Perm (l.all.all.filter (·.hash ≠ hash))) :
    ∃ gone, Tracks (l.remove hash order) gone := by
  unfold TxPricedList.remove TxLookup.remove
  rcases hget : l.all.get hash with _ | tx
  · exact ⟨gone, h⟩
  · obtain ⟨htx, rfl⟩ : tx ∈ l.all.all ∧ tx.hash = hash :=
      ⟨mem_of_find?_eq_some hget, by simpa using find?_some hget⟩
    have hkeyed : (l.all.all.map PoolTx.hash).Nodup := by
      have hdistinct := h.distinct
      rw [map_append] at hdistinct
      exact hdistinct.of_append_left
    dsimp only [Option.map_some, removed]
    split
    · -- the entry of the transaction becomes stale
      have hperm : (l.all.all ++ gone).Perm (l.all.all.filter (·.hash ≠ tx.hash) ++ tx :: gone) :=
        ((perm_cons_filter hkeyed htx).append_right _).trans perm_middle.symm
      refine ⟨tx :: gone, h.perm.trans hperm, (hperm.map _).nodup_iff.mp h.distinct, h.ordered, ?_⟩
      rw [h.counted, length_cons]
      rfl
    · refine ⟨[], ?_, ?_, Heap.init_ordered (agrees_price _), rfl⟩
      · rw [append_nil]
        exact (Heap.initFrom_perm _ _).trans horder
      · rw [append_nil]
        exact hkeyed.sublist (filter_sublist.map _)

theorem Tracks.popStale (fuel : ℕ) (h : Tracks l gone) :
    ∃ gone, Tracks { l with items := (popStale l.all fuel l.items l.stales).1,
                            stales := (popStale l.all fuel l.items l.stales).2 } gone := by
  induction fuel generalizing l gone with
  | zero => exact ⟨gone, h⟩
  | succ fuel ih =>
    unfold TxPricedList.popStale
    split
    · next head popped rest hhead hpop =>
      obtain rfl := Option.some.inj (hhead.symm.trans (Heap.pop_head hpop))
      have hpopped := (Heap.pop_perm hpop).trans h.perm
      split
      · next hstale =>
        have hmem : head ∈ gone := by
          rw [← (filter_stale h.distinct).1, mem_filter]
          exact ⟨hpopped.mem_iff.mp mem_cons_self, hstale⟩
        obtain ⟨before, after, rfl⟩ := append_of_mem hmem
        have hmiddle : (l.all.all ++ (before ++ head :: after)).Perm
            (head :: (l.all.all ++ (before ++ after))) := by
          rw [← append_assoc, ← append_assoc]
          exact perm_middle
        have hrest : Tracks { l with items := rest, stales := l.stales - 1 } (before ++ after) := by
          constructor
          · exact (hpopped.trans hmiddle).cons_inv
          · exact (nodup_cons.mp ((hmiddle.map _).nodup_iff.mp h.distinct)).2
          · exact (Heap.pop_ordered (agrees_price _) h.ordered hpop).2
          · have hcounted := h.counted
            rw [length_append, length_cons] at hcounted
            rw [length_append]
            dsimp only
            omega
        exact ih hrest
      · exact ⟨gone, h⟩
    · exact ⟨gone, h⟩

theorem Tracks.underpriced (h : Tracks l gone) :
    ∃ gone, Tracks (l.underpriced tx accounts).1 gone := by
  have hpop := h.popStale l.items.length
  unfold TxPricedList.underpriced
  split
  · exact ⟨gone, h⟩
  · dsimp only
    split <;> exact hpop

/-! ## Discarding -/

def isDropped (all : TxLookup) (accounts : List Address) (tx : PoolTx) : Bool :=
  !containsTx accounts tx && !isStale all tx

def isSaved (all : TxLookup) (accounts : List Address) (tx : PoolTx) : Bool :=
  containsTx accounts tx && !isStale all tx

/-- A sweep takes the first entries off the heap until there are enough slots or no entries. -/
structure Swept (all : TxLookup) (accounts : List Address) (slots : ℤ) (s s' : Sweep)
    (popped : List PoolTx) : Prop where
  perm : (popped ++ s'.items).Perm s.items
  ordered : Heap.Ordered priceKey s'.items s'.items.length
  sorted : popped.Pairwise fun a b => priceKey b ≤ priceKey a
  first : ∀ a ∈ popped, ∀ b ∈ s'.items, priceKey b ≤ priceKey a
  stales : s'.stales = s.stales - popped.countP (isStale all)
  drop : s'.drop = s.drop ++ popped.filter (isDropped all accounts)
  save : s'.save = s.save ++ popped.filter (isSaved all accounts)
  enough : slots ≤ (((popped.filter (isDropped all accounts)).map numSlots).sum : ℕ) ∨ s'.items = []

variable {slots : ℤ} {s : Sweep}

theorem Swept.stop (hordered : Heap.Ordered priceKey s.items s.items.length)
    (h : slots ≤ 0 ∨ s.items = []) : Swept all accounts slots s s [] :=
  ⟨.refl _, hordered, .nil, by simp, by simp, by simp, by simp, h⟩

theorem Swept.cons {s₁ s' : Sweep} {popped : List PoolTx}
    (h : Swept all accounts (slots - (([tx].filter (isDropped all accounts)).map numSlots).sum)
      s₁ s' popped) (hpop : Heap.pop priceLess s.items = some (tx, s₁.items))
    (hordered : Heap.Ordered priceKey s.items s.items.length)
    (hstales : s₁.stales = s.stales - [tx].countP (isStale all))
    (hdrop : s₁.drop = s.drop ++ [tx].filter (isDropped all accounts))
    (hsave : s₁.save = s.save ++ [tx].filter (isSaved all accounts)) :
    Swept all accounts slots s s' ([tx] ++ popped) := by
  have hmax : ∀ b ∈ popped ++ s'.items, priceKey b ≤ priceKey tx := fun b hb =>
    (Heap.pop_ordered (agrees_price _) hordered hpop).1 b (h.perm.mem_iff.mp hb)
  obtain ⟨hpopped, hitems⟩ := forall_mem_append.mp hmax
  constructor
  · exact (h.perm.cons tx).trans (Heap.pop_perm hpop)
  · exact h.ordered
  · exact pairwise_cons.mpr ⟨hpopped, h.sorted⟩
  · exact forall_mem_cons.mpr ⟨hitems, h.first⟩
  · rw [h.stales, hstales, countP_append]
    omega
  · rw [h.drop, hdrop, filter_append, append_assoc]
  · rw [h.save, hsave, filter_append, append_assoc]
  · rw [filter_append, map_append, sum_append]
    apply h.enough.imp_left
    omega

theorem sweep_spec (all : TxLookup) (accounts : List Address) (fuel : ℕ) (slots : ℤ) (s : Sweep)
    (hordered : Heap.Ordered priceKey s.items s.items.length) (hfuel : s.items.length ≤ fuel) :
    ∃ popped, Swept all accounts slots s (sweep all accounts fuel slots s) popped := by
  induction fuel generalizing slots s with
  | zero =>
    exact ⟨[], .stop hordered (.inr (length_eq_zero_iff.mp (Nat.le_zero.mp hfuel)))⟩
  | succ fuel ih =>
    unfold sweep
    split
    · next hslots => exact ⟨[], .stop hordered (.inl hslots)⟩
    · split
      · next hpop => exact ⟨[], .stop hordered (.inr (Heap.pop_eq_none_iff.mp hpop))⟩
      · next tx items hpop =>
        have hrest := (Heap.pop_ordered (agrees_price _) hordered hpop).2
        have hlen : items.length ≤ fuel := by
          have := (Heap.pop_perm hpop).length_eq
          rw [length_cons] at this
          omega
        split
        · next hstale =>
          obtain ⟨popped, h⟩ := ih slots { s with items, stales := s.stales - 1 } hrest hlen
          exact ⟨tx :: popped, .cons (by simpa [isDropped, hstale] using h) hpop hordered
            (by simp [hstale]) (by simp [isDropped, hstale]) (by simp [isSaved, hstale])⟩
        · next hstale =>
          split
          · next hlocal =>
            obtain ⟨popped, h⟩ := ih slots { s with items, save := s.save ++ [tx] } hrest hlen
            exact ⟨tx :: popped, .cons (by simpa [isDropped, hlocal] using h) hpop hordered
              (by simp [hstale]) (by simp [isDropped, hlocal]) (by simp [isSaved, hstale, hlocal])⟩
          · next hlocal =>
            obtain ⟨popped, h⟩ :=
              ih (slots - numSlots tx) { s with items, drop := s.drop ++ [tx] } hrest hlen
            exact ⟨tx :: popped, .cons (by simpa [isDropped, hstale, hlocal] using h) hpop hordered
              (by simp [hstale]) (by simp [isDropped, hstale, hlocal]) (by simp [isSaved, hlocal])⟩

theorem foldl_remove_all (drop : List PoolTx) (all : TxLookup) :
    (drop.foldl (fun all tx => (all.remove tx.hash).getD all) all).all =
      all.all.filter (·.hash ∉ drop.map PoolTx.hash) := by
  induction drop generalizing all with
  | nil => simp
  | cons tx drop ih =>
    have hone : ((all.remove tx.hash).getD all).all = all.all.filter (·.hash ≠ tx.hash) := by
      unfold TxLookup.remove
      rcases hget : all.get tx.hash with _ | other
      · have hstale : isStale all tx = true := by rw [isStale, hget, Option.isNone_none]
        exact (filter_hash_ne (isStale_iff.mp hstale)).symm
      · rfl
    rw [foldl_cons, ih, hone, filter_filter]
    apply filter_congr
    intro other _
    simp [not_or, Bool.and_comm]

variable {s' : Sweep} {popped : List PoolTx}

theorem perm_kinds (all : TxLookup) (accounts : List Address) (popped : List PoolTx) :
    (popped.filter (isDropped all accounts) ++ popped.filter (isSaved all accounts)).Perm
      (popped.filter (!isStale all ·)) := by
  have h := filter_append_perm (!containsTx accounts ·) (popped.filter (!isStale all ·))
  simp only [filter_filter, Bool.not_not] at h
  exact h

section

variable (h : Tracks l gone) (hs : Swept l.all accounts slots ⟨l.items, l.stales, [], []⟩ s' popped)

include h hs

theorem Tracks.swept :
    l.all.all.Perm (s'.drop ++ (s'.save ++ s'.items.filter (!isStale l.all ·))) ∧
      gone.Perm (popped.filter (isStale l.all) ++ s'.items.filter (isStale l.all)) := by
  obtain ⟨hgone, hall⟩ := filter_stale h.distinct
  have hperm := hs.perm.trans h.perm
  constructor
  · have hlive := hperm.filter (!isStale l.all ·)
    rw [hall, filter_append] at hlive
    rw [hs.drop, hs.save, nil_append, nil_append, ← append_assoc]
    exact (((perm_kinds l.all accounts popped).append_right _).trans hlive).symm
  · have hdead := hperm.filter (isStale l.all)
    rw [hgone, filter_append] at hdead
    exact hdead.symm

theorem Tracks.discards :
    l.Discards slots accounts s'.drop := by
  have hall := (h.swept hs).1
  have hdropped : ∀ tx ∈ s'.drop, tx ∈ popped ∧ containsTx accounts tx = false := by
    intro tx htx
    rw [hs.drop, nil_append, mem_filter, isDropped, Bool.and_eq_true] at htx
    exact ⟨htx.1, by simpa using htx.2.1⟩
  -- what is not dropped and not local is still in the heap
  have hleft : ∀ tx ∈ l.all.all, containsTx accounts tx = false → tx ∉ s'.drop →
      tx ∈ s'.items := by
    intro tx htx hremote hne
    rcases mem_append.mp ((mem_append.mp (hall.mem_iff.mp htx)).resolve_left hne) with
      hsaved | hmem
    · rw [hs.save, nil_append, mem_filter, isSaved, hremote, Bool.false_and] at hsaved
      cases hsaved.2
    · exact mem_of_mem_filter hmem
  constructor
  · have hdistinct := h.distinct
    rw [map_append] at hdistinct
    have hnodup := (hall.map PoolTx.hash).nodup_iff.mp hdistinct.of_append_left
    rw [map_append] at hnodup
    exact hnodup.of_append_left
  · exact fun tx htx => hall.mem_iff.mpr (mem_append_left _ htx)
  · exact fun tx htx => (hdropped tx htx).2
  · rw [hs.drop]
    exact (hs.sorted.filter _).imp gasPrice_le
  · intro tx htx other hother hremote hne
    apply gasPrice_le
    exact hs.first tx (hdropped tx htx).1 other (hleft other hother hremote hne)
  · rw [hs.drop, nil_append]
    apply hs.enough.imp_right
    intro hnil tx htx hremote
    by_contra hne
    have hmem := hleft tx htx hremote (by rwa [hs.drop, nil_append])
    rw [hnil] at hmem
    cases hmem

end

theorem Tracks.makeRoom {l' : TxPricedList} (h : Tracks l gone)
    (hroom : l.makeRoom slots accounts = .ok l') : ∃ gone, Tracks l' gone := by
  obtain ⟨popped, hs⟩ := sweep_spec l.all accounts l.items.length slots
    ⟨l.items, l.stales, [], []⟩ h.ordered le_rfl
  obtain ⟨hall, hgone⟩ := h.swept hs
  have hcount := hgone.length_eq
  unfold TxPricedList.makeRoom TxPricedList.discard at hroom
  split at hroom
  · cases hroom
  · cases hroom
    revert hs hall hgone hcount
    generalize sweep l.all accounts l.items.length slots ⟨l.items, l.stales, [], []⟩ = s'
    intro hs hall hgone hcount
    have hdistinct := (((hall.append hgone).map PoolTx.hash).nodup_iff.mp h.distinct)
    rw [append_assoc, map_append, nodup_append] at hdistinct
    have hkept : (s'.drop.foldl (fun all tx => (all.remove tx.hash).getD all) l.all).all.Perm
        (s'.save ++ s'.items.filter (!isStale l.all ·)) := by
      rw [foldl_remove_all]
      apply (hall.filter _).trans
      rw [filter_append, filter_eq_nil_iff.mpr, filter_eq_self.mpr, nil_append]
      · intro tx htx
        rw [decide_eq_true_eq]
        exact fun hmem => hdistinct.2.2 _ hmem _ (mem_map_of_mem (mem_append_left _ htx)) rfl
      · intro tx htx
        simpa using ⟨tx, htx, rfl⟩
    refine ⟨s'.items.filter (isStale l.all), ?_, ?_, Heap.foldl_push_ordered agrees_price _ _ hs.ordered, ?_⟩
    · apply (Heap.foldl_push_perm _ _).trans
      apply List.Perm.trans _ (hkept.symm.append_right _)
      rw [append_assoc]
      apply List.Perm.append_left
      have hsplit := filter_append_perm (!isStale l.all ·) s'.items
      simp only [Bool.not_not] at hsplit
      exact hsplit.symm
    · apply ((hkept.append_right _).map _).nodup_iff.mpr
      exact hdistinct.2.1.sublist (((sublist_append_right _ _).append_left _).map _)
    · rw [length_append, ← countP_eq_length_filter] at hcount
      rw [hs.stales, h.counted]
      dsimp only
      omega

theorem Tracks.staleEntries (h : Tracks l gone) : l.stales = l.staleEntries := by
  rw [h.counted, TxPricedList.staleEntries, h.perm.countP_eq, countP_eq_length_filter,
    (filter_stale h.distinct).1]

theorem Reached.tracks (h : Reached l) : ∃ gone, Tracks l gone := by
  induction h with
  | empty => exact ⟨[], .refl _, .nil, fun k _ hk => absurd hk (Nat.not_lt_zero k), rfl⟩
  | add tx _ hfresh ih => exact ⟨_, ih.choose_spec.add hfresh⟩
  | remove hash order _ horder ih => exact ih.choose_spec.remove horder
  | underpriced tx accounts _ ih => exact ih.choose_spec.underpriced
  | makeRoom slots accounts _ hroom ih => exact ih.choose_spec.makeRoom hroom

/-- Unless transactions come back early, a discard keeps its promise and counts stale entries. -/
theorem discard_makes_room (h : Reached l) {slots : ℤ} (hslots : 0 ≤ slots)
    (accounts : List Address) :
    l.stales = l.staleEntries ∧ ∃ l' drop, l.discard slots accounts = .ok (l', drop) ∧
      l.Discards slots accounts drop ∧ l'.stales = l'.staleEntries := by
  obtain ⟨gone, ht⟩ := h.tracks
  obtain ⟨popped, hs⟩ := sweep_spec l.all accounts l.items.length slots
    ⟨l.items, l.stales, [], []⟩ ht.ordered le_rfl
  refine ⟨ht.staleEntries, _, _, if_neg (not_lt.mpr hslots), ht.discards hs, ?_⟩
  -- what was put back is not stale
  have hsaved : (popped.filter (isSaved l.all accounts)).countP (isStale l.all) = 0 := by
    rw [countP_filter, countP_eq_zero]
    rintro tx - htx
    simp only [isSaved, Bool.and_eq_true, Bool.not_eq_true'] at htx
    exact absurd htx.1 (Bool.eq_false_iff.mp htx.2.2)
  have hcount := hs.perm.countP_eq (isStale l.all)
  have hstales := ht.staleEntries
  unfold TxPricedList.staleEntries at hstales ⊢
  rw [countP_append] at hcount
  dsimp only at hcount ⊢
  rw [(Heap.foldl_push_perm _ _).countP_eq, countP_append, hs.stales, hs.save, nil_append, hsaved]
  dsimp only
  omega

def remoteTx (price : ℕ) : PoolTx := ⟨price, none, 0, price, 100⟩

theorem discard_makes_room_after_removal :
    ∃ l : TxPricedList, l.stales = l.staleEntries ∧ ∃ l' drop, l.discard 1 [] = .ok (l', drop) ∧
      l.Discards 1 [] drop ∧ l'.stales = l'.staleEntries :=
  ⟨_, discard_makes_room (.remove (remoteTx 1).hash [remoteTx 3, remoteTx 2]
    (.add (remoteTx 3) (.add (remoteTx 2) (.add (remoteTx 1) .empty (by decide)) (by decide +kernel))
      (by decide +kernel)) (by decide +kernel)) (by decide) []⟩

theorem readded_transaction_discarded_twice :
    let l := ((((TxPricedList.mk ⟨[], 0⟩ [] 0).add (remoteTx 1)).add (remoteTx 2)).add
      (remoteTx 3)).add (remoteTx 4)
    let l := (l.remove (remoteTx 1).hash [remoteTx 2, remoteTx 3, remoteTx 4]).add (remoteTx 1)
    (l.discard 2 []).toOption.map Prod.snd = some [remoteTx 1, remoteTx 1] ∧
      l.stales = 1 ∧ l.staleEntries = 0 ∧ l.all.all.length = 4 ∧
      (l.discard (-3) []).toOption.isNone = true := by
  decide +kernel

end TxPricedList

end Kaia.TxPool
