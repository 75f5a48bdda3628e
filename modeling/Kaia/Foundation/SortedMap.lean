import Mathlib
import Kaia.Foundation.HeapOrder

/-! # Sorted maps

The items of a map by their keys, a heap of the keys, and a slice of the items in order, kept from
the last time they were sorted.
-/

namespace Kaia.Foundation

open List

variable {α N σ : Type} [LinearOrder N]

/-! ## Heaps of keys -/

def lessKey (a b : N) : Bool := a < b

theorem agrees_lessKey (l : List N) : Heap.Agrees lessKey OrderDual.toDual l := fun a _ b _ => by
  simp [lessKey]

/-- A heap that has the keys of a list, the least one first. -/
structure HeapOf (index keys : List N) : Prop where
  perm : index.Perm keys
  ordered : Heap.Ordered OrderDual.toDual index index.length

variable {index keys : List N} {n : N}

theorem HeapOf.congr {keys' : List N} (h : HeapOf index keys) (hnodup : keys.Nodup)
    (hnodup' : keys'.Nodup) (hmem : ∀ n, n ∈ keys ↔ n ∈ keys') : HeapOf index keys' :=
  ⟨h.perm.trans ((perm_ext_iff_of_nodup hnodup hnodup').mpr hmem), h.ordered⟩

theorem HeapOf.push (h : HeapOf index keys) (n : N) :
    HeapOf (Heap.push lessKey index n) (n :: keys) where
  perm := (Heap.push_perm index n).trans (h.perm.cons n)
  ordered := by
    rw [(Heap.push_perm index n).length_eq]
    exact Heap.push_ordered (agrees_lessKey _) h.ordered

theorem HeapOf.pop {key : α → N} {a : α} {l : List α} (h : HeapOf index ((a :: l).map key))
    (hsorted : (a :: l).Pairwise (key · < key ·)) :
    ∃ rest, Heap.pop lessKey index = some (key a, rest) ∧ HeapOf rest (l.map key) := by
  cases hpop : Heap.pop lessKey index with
  | none =>
    obtain rfl := Heap.pop_eq_none_iff.mp hpop
    exact absurd h.perm.symm (by simp)
  | some r =>
    obtain ⟨m, rest⟩ := r
    obtain ⟨hfirst, hordered⟩ := Heap.pop_ordered (agrees_lessKey index) h.ordered hpop
    have hkeys := (Heap.pop_perm hpop).trans h.perm
    rw [map_cons] at hkeys
    obtain rfl : m = key a := by
      apply le_antisymm
      · rcases mem_cons.mp (hkeys.mem_iff.mpr mem_cons_self) with ha | ha
        · exact ha.ge
        · exact hfirst (key a) ha
      · rcases mem_cons.mp (hkeys.mem_iff.mp mem_cons_self) with rfl | hm
        · exact le_rfl
        · obtain ⟨b, hb, rfl⟩ := mem_map.mp hm
          exact ((pairwise_cons.mp hsorted).1 b hb).le
    exact ⟨rest, rfl, hkeys.cons_inv, hordered⟩

theorem HeapOf.remove (h : HeapOf index keys) (hn : n ∈ keys) :
    HeapOf (Heap.remove lessKey index (index.idxOf n)) (keys.erase n) := by
  have hmem := h.perm.mem_iff.mpr hn
  have hlt := idxOf_lt_length_of_mem hmem
  have hperm : (n :: Heap.remove lessKey index (index.idxOf n)).Perm index :=
    Heap.remove_perm (by rw [getElem?_eq_getElem hlt, getElem_idxOf])
  have hlen := hperm.length_eq
  refine ⟨(hperm.trans (h.perm.trans (perm_cons_erase hn))).cons_inv, ?_⟩
  have hordered := Heap.remove_ordered (agrees_lessKey index) h.ordered hlt
  rwa [← hlen] at hordered

/-! ## The map -/

structure SortedMap (α N : Type) where
  items : List α
  index : List N
  cache : Option (List α)

namespace SortedMap

variable (key : α → N) (m : SortedMap α N)

def get (n : N) : Option α := m.items.find? (key · = n)

def put (a : α) : SortedMap α N where
  items := m.items.filter (key · < key a) ++ a :: m.items.filter (key a < key ·)
  index := if (m.get key (key a)).isNone then Heap.push lessKey m.index (key a) else m.index
  cache := none

/-- Take the first items out while the test on their keys holds, which changes from one to the
next. -/
def drain (more : σ → N → Bool) (next : σ → σ) :
    ℕ → σ → SortedMap α N → List (Option α) × SortedMap α N
  | 0, _, m => ([], m)
  | fuel + 1, s, m =>
    match Heap.pop lessKey m.index with
    | none => ([], m)
    | some (n, index) =>
      if more s n then
        let (ready, m') := drain more next fuel (next s)
          { m with items := m.items.filter (key · ≠ n), index }
        (m.get key n :: ready, m')
      else ([], m)

def remove (n : N) : Bool × SortedMap α N :=
  if (m.get key n).isSome then
    (true, ⟨m.items.filter (key · ≠ n),
      if n ∈ m.index then Heap.remove lessKey m.index (m.index.idxOf n) else m.index, none⟩)
  else (false, m)

/-- A loop over the map goes through it in some order. -/
abbrev Visit (α : Type) := {visit : List α → List α // ∀ l, (visit l).Perm l}

def filter (order : Visit α) (f : α → Bool) : List α × SortedMap α N :=
  let removed := (order.1 m.items).filter f
  let kept := m.items.filter (!f ·)
  (removed, if removed.isEmpty then m
    else ⟨kept, Heap.init lessKey ((order.1 kept).map key), none⟩)

def flatten (order : Visit α) : List α × SortedMap α N :=
  match m.cache with
  | some c => (c, m)
  | none =>
    let c := (order.1 m.items).insertionSort (key · ≤ key ·)
    (c, { m with cache := some c })

/-- Cut items off the front of the slice. It may be too short. -/
def shift (k : ℕ) : Option (SortedMap α N) :=
  match m.cache with
  | none => some m
  | some c => if c.length < k then none else some { m with cache := some (c.drop k) }

/-- Drop the item of the last key of the sorted index while more than `threshold` are left. -/
def dropHighest (key : α → N) (index : List N) (threshold : ℤ) :
    ℕ → List α → Option (List (Option α) × List α)
  | 0, items => if threshold < 0 then none else some ([], items)
  | size + 1, items =>
    if threshold < size + 1 then do
      let n ← index[size]?
      let (drops, left) ← dropHighest key index threshold size (items.filter (key · ≠ n))
      some (items.find? (key · = n) :: drops, left)
    else some ([], items)

def cap (threshold : ℤ) : Option (List (Option α) × SortedMap α N) :=
  if m.items.length ≤ threshold then some ([], m)
  else do
    let index := m.index.insertionSort (· ≤ ·)
    let (drops, items) ← dropHighest key index threshold m.items.length m.items
    if m.cache.any (·.length < drops.length) then none
    else some (drops, ⟨items, Heap.init lessKey (index.take threshold.toNat),
      m.cache.map fun c => c.take (c.length - drops.length)⟩)

/-- The items are in order, the heap has their keys, and the slice ends with them. -/
structure Wf : Prop where
  sorted : m.items.Pairwise (key · < key ·)
  heap : HeapOf m.index (m.items.map key)
  cache : ∀ c, m.cache = some c → c.Pairwise (key · < key ·) ∧ m.items <:+ c

/-- How many items the slice has and the map does not, if there is a slice. -/
def behind : Option ℕ := m.cache.map (·.length - m.items.length)

variable {key m} {a : α} {l : List α}

theorem Wf.current_iff (h : m.Wf key) :
    (∀ c, m.cache = some c → c = m.items) ↔ m.behind.getD 0 = 0 := by
  unfold behind
  cases hcache : m.cache with
  | none => simp
  | some c =>
    have hsuffix := (h.cache c hcache).2
    have hlen := hsuffix.length_le
    refine ⟨fun hc => by simp [hc c rfl], ?_⟩
    rintro hzero _ ⟨⟩
    have hzero : c.length - m.items.length = 0 := hzero
    exact (hsuffix.eq_of_length (by omega)).symm

theorem wf_empty : Wf key ⟨[], [], none⟩ := ⟨.nil, ⟨.nil, nofun⟩, nofun⟩

theorem nodup_keys (h : l.Pairwise (key · < key ·)) : (l.map key).Nodup :=
  pairwise_map.mpr (h.imp ne_of_lt)

theorem get_isSome : (m.get key n).isSome ↔ n ∈ m.items.map key := by simp [get]

theorem Wf.get_eq (h : m.Wf key) (ha : a ∈ m.items) : m.get key (key a) = some a := by
  cases hget : m.get key (key a) with
  | none => simpa using find?_eq_none.mp hget a ha
  | some b =>
    have hkey : key b = key a := by simpa using find?_some hget
    rw [inj_on_of_nodup_map (nodup_keys h.sorted) (mem_of_find?_eq_some hget) ha hkey]

theorem Wf.put (h : m.Wf key) (a : α) : (m.put key a).Wf key := by
  have hsorted : (m.put key a).items.Pairwise (key · < key ·) := by
    refine pairwise_append.mpr ⟨h.sorted.filter _, pairwise_cons.mpr ⟨?_, h.sorted.filter _⟩, ?_⟩
    · exact fun b hb => of_decide_eq_true (mem_filter.mp hb).2
    · intro b hb c hc
      have hba := of_decide_eq_true (mem_filter.mp hb).2
      rcases mem_cons.mp hc with rfl | hc
      · exact hba
      · exact hba.trans (of_decide_eq_true (mem_filter.mp hc).2)
  have hmem : ∀ n, n ∈ (m.put key a).items.map key ↔ n = key a ∨ n ∈ m.items.map key := by
    intro n
    rcases lt_trichotomy n (key a) with hn | hn | hn <;> simp [SortedMap.put] <;> grind
  refine ⟨hsorted, ?_, nofun⟩
  show HeapOf (if _ then _ else _) _
  by_cases hin : key a ∈ m.items.map key
  · rw [if_neg (by simpa [get] using hin)]
    refine h.heap.congr (nodup_keys h.sorted) (nodup_keys hsorted) fun n => ?_
    rw [hmem]
    exact ⟨.inr, fun h => h.elim (· ▸ hin) id⟩
  · rw [if_pos (by simpa [get] using hin)]
    exact (h.heap.push (key a)).congr (nodup_cons.mpr ⟨hin, nodup_keys h.sorted⟩)
      (nodup_keys hsorted) fun n => mem_cons.trans (hmem n).symm

theorem Wf.remove (h : m.Wf key) (n : N) : (m.remove key n).2.Wf key ∧
    (m.remove key n).2.items = m.items.filter (key · ≠ n) ∧
    (m.remove key n).1 = (m.get key n).isSome := by
  unfold SortedMap.remove
  split
  · next hn =>
    have hin := get_isSome.mp hn
    have hsorted := h.sorted.filter (key · ≠ n)
    refine ⟨⟨hsorted, ?_, nofun⟩, rfl, hn.symm⟩
    rw [if_pos (h.heap.perm.mem_iff.mpr hin)]
    refine (h.heap.remove hin).congr ((nodup_keys h.sorted).erase n) (nodup_keys hsorted) fun k => ?_
    rw [(nodup_keys h.sorted).mem_erase_iff]
    simp
    grind
  · next hn =>
    refine ⟨h, (filter_eq_self.mpr fun a ha => ?_).symm, (Bool.eq_false_of_not_eq_true hn).symm⟩
    exact decide_eq_true fun heq => hn (get_isSome.mpr (heq ▸ mem_map_of_mem ha))

theorem Wf.filter (h : m.Wf key) (order : Visit α) (f : α → Bool) :
    (m.filter key order f).2.Wf key ∧ (m.filter key order f).2.items = m.items.filter (!f ·) := by
  unfold SortedMap.filter
  dsimp only
  split
  · next hnone =>
    refine ⟨h, (filter_eq_self.mpr fun a ha => ?_).symm⟩
    have := (filter_eq_nil_iff.mp (isEmpty_iff.mp hnone)) a ((order.2 _).mem_iff.mpr ha)
    simpa using this
  · exact ⟨⟨h.sorted.filter _, ⟨(Heap.initFrom_perm _ _).trans ((order.2 _).map key),
      Heap.init_ordered (agrees_lessKey _)⟩, nofun⟩, rfl⟩

theorem Wf.head?_index (h : m.Wf key) : m.index.head? = m.items.head?.map key := by
  obtain ⟨items, index, cache⟩ := m
  cases items with
  | nil => rw [h.heap.perm.eq_nil]; rfl
  | cons a l =>
    obtain ⟨rest, hpop, -⟩ := h.heap.pop h.sorted
    exact Heap.pop_head hpop

/-- How many items are taken out. -/
def taken (key : α → N) (more : σ → N → Bool) (next : σ → σ) : σ → List α → ℕ
  | _, [] => 0
  | s, a :: l => if more s (key a) then taken key more next (next s) l + 1 else 0

variable (more : σ → N → Bool) (next : σ → σ)

theorem drain_eq (fuel : ℕ) (s : σ) (hfuel : m.items.length ≤ fuel)
    (hsorted : m.items.Pairwise (key · < key ·)) (hheap : HeapOf m.index (m.items.map key)) :
    ∃ index, HeapOf index ((m.items.drop (taken key more next s m.items)).map key) ∧
      drain key more next fuel s m = ((m.items.take (taken key more next s m.items)).map some,
        { m with items := m.items.drop (taken key more next s m.items), index }) := by
  induction fuel generalizing s m with
  | zero =>
    obtain ⟨items, index, cache⟩ := m
    obtain rfl := length_eq_zero_iff.mp (Nat.le_zero.mp hfuel)
    exact ⟨index, hheap, rfl⟩
  | succ fuel ih =>
    obtain ⟨items, index, cache⟩ := m
    cases items with
    | nil =>
      obtain rfl := hheap.perm.eq_nil
      exact ⟨[], hheap, rfl⟩
    | cons a l =>
      obtain ⟨rest, hpop, hrest⟩ := hheap.pop hsorted
      rw [pairwise_cons] at hsorted
      have hget : get key ⟨a :: l, index, cache⟩ (key a) = some a := by simp [get]
      have hkept : (a :: l).filter (key · ≠ key a) = l := by
        simp only [ne_eq, not_true_eq_false, decide_false, Bool.false_eq_true, not_false_eq_true,
          filter_cons_of_neg]
        exact filter_eq_self.mpr fun b hb => decide_eq_true (hsorted.1 b hb).ne'
      simp only [drain, hpop, taken, hget, hkept]
      by_cases hmore : more s (key a) = true
      · obtain ⟨i, hi, heq⟩ := ih (m := ⟨l, rest, cache⟩) (next s) (Nat.le_of_succ_le_succ hfuel)
          hsorted.2 hrest
        refine ⟨i, by simpa [hmore] using hi, ?_⟩
        simp [hmore, heq]
      · exact ⟨index, by simpa [hmore] using hheap, by simp [hmore]⟩

theorem Wf.drain (h : m.Wf key) (s : σ) : ∃ index,
    drain key more next m.index.length s m = ((m.items.take (taken key more next s m.items)).map some,
      { m with items := m.items.drop (taken key more next s m.items), index }) ∧
    Wf key { m with items := m.items.drop (taken key more next s m.items), index } := by
  obtain ⟨index, hindex, heq⟩ := drain_eq more next m.index.length s
    (by rw [h.heap.perm.length_eq, length_map]) h.sorted h.heap
  refine ⟨index, heq, h.sorted.drop, hindex, fun c hc => ?_⟩
  exact (h.cache c hc).imp_right ((drop_suffix _ _).trans ·)

theorem Wf.behind_drop (h : m.Wf key) (k : ℕ) (index : List N) :
    behind { m with items := m.items.drop k, index } =
      m.behind.map (· + (m.items.length - (m.items.drop k).length)) := by
  unfold behind
  cases hcache : m.cache with
  | none => rfl
  | some c =>
    have hlen := (h.cache c hcache).2.length_le
    simp only [Option.map_some, length_drop, Option.some.injEq]
    omega

theorem Wf.shift {k : ℕ} (h : m.Wf key) (hd : Wf key { m with items := m.items.drop k, index }) :
    ∃ cache, SortedMap.shift { m with items := m.items.drop k, index } (min k m.items.length) =
      some ⟨m.items.drop k, index, cache⟩ ∧ Wf key ⟨m.items.drop k, index, cache⟩ ∧
      behind ⟨m.items.drop k, index, cache⟩ = m.behind := by
  unfold SortedMap.shift behind
  cases hcache : m.cache with
  | none => exact ⟨none, rfl, ⟨hd.sorted, hd.heap, nofun⟩, rfl⟩
  | some c =>
    obtain ⟨hsorted, hsuffix⟩ := h.cache c hcache
    have hlen := hsuffix.length_le
    refine ⟨some (c.drop (min k m.items.length)), if_neg (by omega), ⟨hd.sorted, hd.heap, ?_⟩, ?_⟩
    · rintro _ ⟨⟩
      refine ⟨hsorted.drop, suffix_of_suffix_length_le ((drop_suffix _ _).trans hsuffix)
        (drop_suffix _ _) ?_⟩
      simp only [length_drop]
      omega
    · simp only [Option.map_some, length_drop, Option.some.injEq]
      omega

theorem taken_forward (threshold : N) (h : l.Pairwise (key · < key ·)) :
    let k := taken key (fun _ n => n < threshold) id () l
    l.take k = l.filter (key · < threshold) ∧ l.drop k = l.filter (threshold ≤ key ·) := by
  induction l with
  | nil => exact ⟨rfl, rfl⟩
  | cons a l ih =>
    obtain ⟨ha, hl⟩ := pairwise_cons.mp h
    by_cases hlt : key a < threshold
    · simpa [taken, hlt, not_le.mpr hlt] using ih hl
    · have hle : ∀ b ∈ l, threshold ≤ key b := fun b hb => (not_lt.mp hlt).trans (ha b hb).le
      have hself := filter_eq_self.mpr fun b hb => decide_eq_true (hle b hb)
      simpa [taken, hlt, not_lt.mp hlt, hself] using hle

omit [LinearOrder N] in
/-- A further test stops the run where it fails. -/
theorem taken_and (ok : N → Bool) (p : α → Bool) (s : σ) (h : ∀ a ∈ l, ok (key a) = p a) :
    taken key (fun s n => more s n && ok n) next s l =
      ((l.take (taken key more next s l)).takeWhile p).length := by
  induction l generalizing s with
  | nil => rfl
  | cons a l ih =>
    have hl := ih (next s) fun b hb => h b (mem_cons_of_mem a hb)
    simp only [taken, h a mem_cons_self]
    cases more s (key a) <;> cases hp : p a <;> simp [hp, hl]

theorem dropHighest_eq (l rest : List α) (k : ℕ) (hsorted : l.Pairwise (key · < key ·)) :
    dropHighest key ((l ++ rest).map key) k l.length l =
      some ((l.drop k).reverse.map some, l.take k) := by
  -- the last item goes first, and its key is the last but those of the items that are gone
  induction l using reverseRecOn generalizing rest with
  | nil => simp [dropHighest]
  | append_singleton l a ih =>
    obtain ⟨hl, -, ha⟩ := pairwise_append.mp hsorted
    have hlt : ∀ b ∈ l, key b < key a := fun b hb => ha b hb a mem_cons_self
    rw [length_append, length_singleton, dropHighest]
    split
    · next hk =>
      have hkept : (l ++ [a]).filter (key · ≠ key a) = l := by
        simpa [filter_append] using fun b hb => (hlt b hb).ne
      have hfind : (l ++ [a]).find? (key · = key a) = some a := by
        rw [find?_append, find?_eq_none.mpr fun b hb => by simpa using (hlt b hb).ne]
        simp
      have hget : (((l ++ [a]) ++ rest).map key)[l.length]? = some (key a) := by simp
      have hle : k ≤ l.length := by omega
      rw [hget]
      simp only [Option.bind_eq_bind, Option.bind_some, hkept, hfind, append_assoc]
      rw [ih ([a] ++ rest) hl]
      simp [drop_append_of_le_length hle, take_append_of_le_length hle]
    · next hk =>
      have hle : (l ++ [a]).length ≤ k := by simp; omega
      rw [drop_eq_nil_of_le hle, take_of_length_le hle]
      rfl

/-- Only the items with the lowest keys stay. -/
theorem Wf.cap (h : m.Wf key) (k : ℕ) (hcache : ∀ c, m.cache = some c → c = m.items) :
    ∃ m', m.cap key k = some ((m.items.drop k).reverse.map some, m') ∧
      m'.items = m.items.take k ∧ m'.Wf key ∧ ∀ c, m'.cache = some c → c = m'.items := by
  unfold SortedMap.cap
  split
  · next hle =>
    have hle := Int.ofNat_le.mp hle
    refine ⟨m, ?_, (take_of_length_le hle).symm, h, hcache⟩
    rw [drop_eq_nil_of_le hle]
    rfl
  · next hle =>
    have hk : k ≤ m.items.length := by omega
    have hindex : m.index.insertionSort (· ≤ ·) = m.items.map key :=
      Perm.eq_of_pairwise (fun _ _ _ _ => le_antisymm) (pairwise_insertionSort (· ≤ ·) _)
        (pairwise_map.mpr (h.sorted.imp le_of_lt)) ((perm_insertionSort _ _).trans h.heap.perm)
    have hdrops := dropHighest_eq m.items [] k h.sorted
    rw [append_nil] at hdrops
    have hheap : HeapOf (Heap.init lessKey ((m.items.take k).map key)) ((m.items.take k).map key) :=
      ⟨Heap.initFrom_perm _ _, Heap.init_ordered (agrees_lessKey _)⟩
    simp only [hindex, hdrops, Option.bind_eq_bind, Option.bind_some, Int.toNat_natCast, ← map_take]
    cases hc : m.cache with
    | none => exact ⟨_, rfl, rfl, ⟨h.sorted.take, hheap, nofun⟩, nofun⟩
    | some c =>
      obtain rfl := hcache c hc
      refine ⟨⟨m.items.take k, Heap.init lessKey _, some (m.items.take k)⟩, ?_, rfl,
        ⟨h.sorted.take, hheap, ?_⟩, ?_⟩
      · simp [Nat.sub_sub_self hk]
      · rintro _ ⟨⟩
        exact ⟨h.sorted.take, suffix_rfl⟩
      · rintro _ ⟨⟩
        rfl

/-- The items whose keys follow each other from the first on. -/
def run (key : α → N) (succ : N → N) : List α → List α
  | a :: b :: l => if key b = succ (key a) then a :: run key succ (b :: l) else [a]
  | l => l

/-- Those, unless they start above a key. -/
def readied (key : α → N) (succ : N → N) (start : N) (l : List α) : List α :=
  if l.head?.any (key · ≤ start) then run key succ l else []

theorem taken_run (succ : N → N) (a : α) (l : List α) :
    taken key (fun next n => n = next) succ (key a) (a :: l) = (run key succ (a :: l)).length ∧
      run key succ (a :: l) = (a :: l).take (run key succ (a :: l)).length := by
  induction l generalizing a with
  | nil => simp [taken, run]
  | cons b l ih =>
    rw [taken, if_pos (decide_eq_true rfl), run]
    split
    · next hb =>
      obtain ⟨hlen, htake⟩ := ih b
      rw [← hb, hlen, length_cons, take_succ_cons, ← htake]
      exact ⟨rfl, rfl⟩
    · next hb => simp [taken, hb]

theorem cache_flatten (order : Visit α) :
    (m.flatten key order).2.cache = some (m.flatten key order).1 := by
  unfold SortedMap.flatten
  cases hc : m.cache with
  | none => rfl
  | some c => exact hc

theorem Wf.flatten (h : m.Wf key) (order : Visit α) : (m.flatten key order).2.Wf key ∧
    (m.flatten key order).2.items = m.items ∧
    (m.flatten key order).2.behind = some (m.behind.getD 0) ∧
    ((m.flatten key order).1 = m.items ↔ m.behind.getD 0 = 0) := by
  rw [← h.current_iff]
  unfold SortedMap.flatten behind
  cases hcache : m.cache with
  | some c => simp [h, hcache]
  | none =>
    have hperm := (perm_insertionSort (key · ≤ key ·) _).trans (order.2 m.items)
    have hsort : (order.1 m.items).insertionSort (key · ≤ key ·) = m.items := by
      refine Perm.eq_of_pairwise ?_ (pairwise_insertionSort (key · ≤ key ·) _)
        (h.sorted.imp le_of_lt) hperm
      intro a b ha hb hab hba
      exact inj_on_of_nodup_map (nodup_keys h.sorted) (hperm.mem_iff.mp ha) hb (le_antisymm hab hba)
    simp only [hsort]
    refine ⟨⟨h.sorted, h.heap, ?_⟩, trivial, by simp, by simp⟩
    rintro c ⟨⟩
    exact ⟨h.sorted, suffix_rfl⟩

end SortedMap

end Kaia.Foundation
