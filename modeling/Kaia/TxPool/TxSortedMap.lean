import Kaia.Foundation.SortedMap
import Kaia.Istanbul.Types

/-! # The nonce-sorted map of the pool

The transactions by their nonces, a heap of the nonces and the transactions in order. Whatever is
done to it, it answers as a plain map.
-/

namespace Kaia.TxPool

open Foundation List SortedMap

/-- The operations; a loop over the map comes with its order. -/
inductive MapOp (α : Type)
  | put (tx : α)
  | forward (threshold : Nonce)
  | filter (order : Visit α) (filter : α → Bool)
  | cap (threshold : ℤ)
  | remove (nonce : Nonce)
  | ready (start : Nonce)
  | readyWithGasPrice (start : Nonce) (baseFee : ℤ)
  | flattenByCount (order : Visit α) (count : ℤ)
  | cachedTxsFlattenByCount (order : Visit α) (count : ℤ)

/-- A transaction that is not in the map is nil. -/
inductive MapResult (α : Type)
  | done
  | found (b : Bool)
  | txs (l : List (Option α))
  deriving DecidableEq

abbrev TxSortedMap (α : Type) := SortedMap α Nonce

variable {α : Type} (nonce : α → Nonce) (gasPrice : α → ℤ)

namespace TxSortedMap

def newTxSortedMap : TxSortedMap α := ⟨[], [], none⟩

variable (m : TxSortedMap α)

def forward (threshold : Nonce) : Option (List (Option α) × TxSortedMap α) :=
  let (removed, m) := m.drain nonce (fun _ n => n < threshold) id m.index.length ()
  (m.shift removed.length).map (removed, ·)

/-- The loop from the first nonce on, unless it is above the start, and what then becomes of the
slice. A nonce comes up once, so its transaction is still the one of the start. -/
def collect (start : Nonce) (ok : α → Bool) (settle : ℕ → TxSortedMap α → Option (TxSortedMap α)) :
    Option (List (Option α) × TxSortedMap α) :=
  match m.index.head? with
  | none => some ([], m)
  | some first =>
    if start < first then some ([], m)
    else
      let (ready, m) := m.drain nonce (fun next n => n = next && (m.get nonce n).any ok) Nonce.next
        m.index.length first
      (settle ready.length m).map (ready, ·)

def ready (start : Nonce) : Option (List (Option α) × TxSortedMap α) :=
  m.collect nonce start (fun _ => true) fun _ m => some { m with cache := none }

def readyWithGasPrice (start : Nonce) (baseFee : ℤ) : Option (List (Option α) × TxSortedMap α) :=
  m.collect nonce start (baseFee ≤ gasPrice ·) fun k m => m.shift k

def txLen (cache : List α) (count : ℤ) : ℤ :=
  if count ≠ 0 ∧ count < cache.length then count else cache.length

def flattenByCount (order : Visit α) (count : ℤ) : Option (List α × TxSortedMap α) :=
  let (cache, m) := m.flatten nonce order
  if txLen cache count < 0 then none else some (cache.take (txLen cache count).toNat, m)

def cachedTxsFlattenByCount (order : Visit α) (count : ℤ) : List α × TxSortedMap α :=
  if count ≤ 0 then ([], m)
  else
    let (cache, m) := m.flatten nonce order
    (cache.take (txLen cache count).toNat, m)

/-- A panic gives nothing. -/
def step : MapOp α → Option (MapResult α × TxSortedMap α)
  | .put tx => some (.done, m.put nonce tx)
  | .forward threshold => (m.forward nonce threshold).map (.map .txs id)
  | .filter order f => some ((m.filter nonce order f).map (.txs ∘ map some) id)
  | .cap threshold => (m.cap nonce threshold).map (.map .txs id)
  | .remove n => some ((m.remove nonce n).map .found id)
  | .ready start => (m.ready nonce start).map (.map .txs id)
  | .readyWithGasPrice start baseFee =>
    (m.readyWithGasPrice nonce gasPrice start baseFee).map (.map .txs id)
  | .flattenByCount order count =>
    (m.flattenByCount nonce order count).map (.map (.txs ∘ map some) id)
  | .cachedTxsFlattenByCount order count =>
    some ((m.cachedTxsFlattenByCount nonce order count).map (.txs ∘ map some) id)

def exec {σ : Type} (step : σ → MapOp α → Option (MapResult α × σ)) :
    σ → List (MapOp α) → Option (List (MapResult α) × σ)
  | s, [] => some ([], s)
  | s, op :: ops => do
    let (result, s) ← step s op
    let (results, s) ← exec step s ops
    some (result :: results, s)

/-! ## The plain map -/

/-- What a plain map whose transactions are given in the order of their nonces takes out, and what
it keeps. -/
def plain (l : List α) : MapOp α → MapResult α × List α
  | .put tx => (.done, l.filter (nonce · < nonce tx) ++ tx :: l.filter (nonce tx < nonce ·))
  | .forward threshold =>
    (.txs ((l.filter (nonce · < threshold)).map some), l.filter (threshold ≤ nonce ·))
  | .filter order f => (.txs (((order.1 l).filter f).map some), l.filter (!f ·))
  | .cap threshold =>
    (.txs ((l.drop threshold.toNat).reverse.map some), l.take threshold.toNat)
  | .remove n => (.found (l.find? (nonce · = n)).isSome, l.filter (nonce · ≠ n))
  | .ready start => takeOut (readied nonce Nonce.next start l)
  | .readyWithGasPrice start baseFee =>
    takeOut ((readied nonce Nonce.next start l).takeWhile (baseFee ≤ gasPrice ·))
  | .flattenByCount _ count => (.txs ((if count = 0 then l else l.take count.toNat).map some), l)
  | .cachedTxsFlattenByCount _ count => (.txs ((l.take count.toNat).map some), l)
where
  takeOut (first : List α) : MapResult α × List α := (.txs (first.map some), l.drop first.length)

/-- No negative number is left or asked for. -/
def Nonneg : MapOp α → Prop
  | .cap n | .flattenByCount _ n => 0 ≤ n
  | _ => True

/-- The slice is none or has all transactions. -/
structure Inv : Prop where
  wf : m.Wf nonce
  cache : ∀ c, m.cache = some c → c = m.items

variable {nonce gasPrice m}

/-- What the loop takes out is the run from the first nonce on, up to the test. -/
theorem collect_eq (h : Inv nonce m) (start : Nonce) (ok : α → Bool)
    (settle : ℕ → TxSortedMap α → Option (TxSortedMap α))
    (hsettle : ∀ k index, Wf nonce { m with items := m.items.drop k, index } →
      ∃ m', settle (min k m.items.length) { m with items := m.items.drop k, index } = some m' ∧
        m'.items = m.items.drop k ∧ Inv nonce m') :
    let ready := (readied nonce Nonce.next start m.items).takeWhile ok
    ∃ m', m.collect nonce start ok settle = some (ready.map some, m') ∧
      m'.items = m.items.drop ready.length ∧ Inv nonce m' := by
  intro ready
  have hhead := h.wf.head?_index
  cases hitems : m.items with
  | nil => exact ⟨m, by simp [collect, ready, readied, hhead, hitems], by simp [hitems], h⟩
  | cons a l =>
    by_cases hstart : start < nonce a
    · exact ⟨m, by simp [collect, ready, readied, hhead, hitems, hstart],
        by simp [ready, readied, hitems, not_le.mpr hstart], h⟩
    · have hrun : ready = (SortedMap.run nonce Nonce.next m.items).takeWhile ok := by
        simp [ready, readied, hitems, not_lt.mp hstart]
      obtain ⟨hlen, htake⟩ := @taken_run α Nonce _ nonce Nonce.next a l
      rw [← hitems] at hlen htake ⊢
      have htaken := @taken_and α Nonce Nonce nonce m.items (fun next n => n = next) Nonce.next
        (fun n => (m.get nonce n).any ok) ok (nonce a)
        fun b hb => by rw [h.wf.get_eq hb, Option.any_some]
      rw [hlen, ← htake, ← hrun] at htaken
      have hready : m.items.take ready.length = ready := by
        refine (prefix_iff_eq_take.mp ?_).symm
        rw [hrun]
        exact ( takeWhile_prefix ok).trans (htake ▸ take_prefix _ _)
      obtain ⟨index, heq, hwf⟩ := h.wf.drain
        (fun next n => n = next && (m.get nonce n).any ok) Nonce.next (nonce a)
      rw [htaken] at heq hwf
      obtain ⟨m', hm', hkept, hinv⟩ := hsettle ready.length index hwf
      rw [← length_take, hready] at hm'
      rw [hitems, head?_cons, Option.map_some] at hhead
      refine ⟨m', ?_, hkept, hinv⟩
      simp only [collect, hhead, if_neg hstart, heq, hready, length_map, hm']
      rfl

theorem Inv.flatten (h : Inv nonce m) (order : Visit α) : (m.flatten nonce order).1 = m.items ∧
    (m.flatten nonce order).2.items = m.items ∧ Inv nonce (m.flatten nonce order).2 := by
  obtain ⟨hwf, hitems, -, hfresh⟩ := h.wf.flatten order
  have heq := hfresh.mpr (h.wf.current_iff.mp h.cache)
  refine ⟨heq, hitems, hwf, fun c hc => ?_⟩
  rw [cache_flatten, heq] at hc
  rw [hitems, Option.some.inj hc]

theorem Inv.shift (h : Inv nonce m) {k : ℕ} {index : List Nonce}
    (hd : Wf nonce { m with items := m.items.drop k, index }) : ∃ m',
    SortedMap.shift { m with items := m.items.drop k, index } (min k m.items.length) = some m' ∧
      m'.items = m.items.drop k ∧ Inv nonce m' := by
  obtain ⟨cache, hshift, hwf, hbehind⟩ := h.wf.shift hd
  refine ⟨_, hshift, rfl, hwf, hwf.current_iff.mpr ?_⟩
  rw [hbehind]
  exact h.wf.current_iff.mp h.cache

theorem take_txLen (l : List α) {count : ℤ} (hcount : 0 ≤ count) : 0 ≤ txLen l count ∧
    l.take (txLen l count).toNat = if count = 0 then l else l.take count.toNat := by
  unfold txLen
  by_cases hlt : count ≠ 0 ∧ count < l.length
  · rw [if_pos hlt, if_neg hlt.1]
    exact ⟨hcount, rfl⟩
  · rw [if_neg hlt]
    refine ⟨by omega, ?_⟩
    split
    · simp
    · next hzero =>
      have hlen : l.length ≤ count.toNat := by omega
      simp [take_of_length_le hlen]

theorem step_refines (h : Inv nonce m) (op : MapOp α) (hop : Nonneg op) : ∃ m',
    m.step nonce gasPrice op = some ((plain nonce gasPrice m.items op).1, m') ∧
      m'.items = (plain nonce gasPrice m.items op).2 ∧ Inv nonce m' := by
  cases op with
  | put tx => exact ⟨_, rfl, rfl, h.wf.put tx, nofun⟩
  | forward threshold =>
    obtain ⟨index, heq, hwf⟩ := h.wf.drain (fun _ n => n < threshold) id ()
    obtain ⟨m', hshift, hitems, hinv⟩ := h.shift hwf
    obtain ⟨htake, hdrop⟩ := taken_forward threshold h.wf.sorted
    refine ⟨m', ?_, hitems.trans hdrop, hinv⟩
    simp only [step, forward, heq, length_map, length_take, hshift]
    rw [htake]
    rfl
  | filter order f =>
    refine ⟨_, rfl, (h.wf.filter order f).2, (h.wf.filter order f).1, ?_⟩
    simp only [id]
    split
    · exact h.cache
    · exact nofun
  | cap threshold =>
    obtain ⟨k, rfl⟩ := Int.eq_ofNat_of_zero_le hop
    obtain ⟨m', heq, hitems, hwf, hcurrent⟩ := h.wf.cap k h.cache
    exact ⟨m', by rw [step, heq]; rfl, hitems, hwf, hcurrent⟩
  | remove n =>
    obtain ⟨hwf, hitems, hfound⟩ := h.wf.remove n
    refine ⟨_, congrArg some (Prod.ext (congrArg MapResult.found hfound) rfl), hitems, hwf, ?_⟩
    unfold SortedMap.remove
    split
    · exact nofun
    · exact h.cache
  | ready start =>
    obtain ⟨m', heq, hitems, hinv⟩ := collect_eq h start (fun _ => true)
      (fun _ m => some { m with cache := none }) fun k index hwf =>
        ⟨_, rfl, rfl, ⟨hwf.sorted, hwf.heap, nofun⟩, nofun⟩
    rw [takeWhile_eq_self_iff.mpr fun _ _ => rfl] at heq hitems
    exact ⟨m', by rw [step, ready, heq]; rfl, hitems, hinv⟩
  | readyWithGasPrice start baseFee =>
    obtain ⟨m', heq, hitems, hinv⟩ := collect_eq h start (baseFee ≤ gasPrice ·)
      (fun k m => m.shift k) fun k index hwf => h.shift hwf
    exact ⟨m', by rw [step, readyWithGasPrice, heq]; rfl, hitems, hinv⟩
  | flattenByCount order count =>
    obtain ⟨heq, hitems, hinv⟩ := h.flatten order
    obtain ⟨hlen, htake⟩ := take_txLen m.items hop
    exact ⟨_, by simp [step, flattenByCount, heq, not_lt.mpr hlen, htake, plain], hitems, hinv⟩
  | cachedTxsFlattenByCount order count =>
    by_cases hcount : count ≤ 0
    · refine ⟨m, ?_, rfl, h⟩
      simp [step, cachedTxsFlattenByCount, hcount, plain, Int.toNat_of_nonpos hcount]
    · obtain ⟨heq, hitems, hinv⟩ := h.flatten order
      obtain ⟨-, htake⟩ := take_txLen m.items (not_le.mp hcount).le
      rw [if_neg (not_le.mp hcount).ne'] at htake
      exact ⟨_, by simp [step, cachedTxsFlattenByCount, hcount, heq, htake, plain], hitems, hinv⟩

theorem exec_refines (h : Inv nonce m) (ops : List (MapOp α)) (hops : ∀ op ∈ ops, Nonneg op) :
    ∃ results m', exec (step nonce gasPrice) m ops = some (results, m') ∧
      exec (fun l op => some (plain nonce gasPrice l op)) m.items ops = some (results, m'.items) ∧
      Inv nonce m' := by
  induction ops generalizing m with
  | nil => exact ⟨[], m, rfl, rfl, h⟩
  | cons op ops ih =>
    obtain ⟨hop, hops⟩ := forall_mem_cons.mp hops
    obtain ⟨m₁, hstep, hitems, h₁⟩ := @step_refines α nonce gasPrice m h op hop
    obtain ⟨results, m₂, hexec, hplain, h₂⟩ := ih h₁ hops
    rw [hitems] at hplain
    exact ⟨_, m₂, by simp [exec, hstep, hexec]; rfl, by simp [exec, hplain], h₂⟩

/-- Every run returns and leaves what it would on a plain map. The index is a heap of the nonces,
and the slice is none or has all transactions in order. -/
theorem tx_sorted_map_refines (nonce : α → Nonce) (gasPrice : α → ℤ) (ops : List (MapOp α))
    (hops : ∀ op ∈ ops, Nonneg op) : ∃ results, ∃ m : TxSortedMap α,
    exec (step nonce gasPrice) newTxSortedMap ops = some (results, m) ∧
    exec (fun l op => some (plain nonce gasPrice l op)) [] ops = some (results, m.items) ∧
    m.items.Pairwise (nonce · < nonce ·) ∧ HeapOf m.index (m.items.map nonce) ∧ m.index.Nodup ∧
    (m.cache = none ∨ m.cache = some m.items) := by
  have hinit : Inv nonce newTxSortedMap := ⟨wf_empty, nofun⟩
  obtain ⟨results, m, hexec, hplain, hinv⟩ := @exec_refines α nonce gasPrice _ hinit ops hops
  refine ⟨results, m, hexec, hplain, hinv.wf.sorted, hinv.wf.heap, ?_, ?_⟩
  · exact hinv.wf.heap.perm.nodup_iff.mpr (nodup_keys hinv.wf.sorted)
  · cases hcache : m.cache with
    | none => exact .inl rfl
    | some c => exact .inr (congrArg some (hinv.cache c hcache))

theorem tx_sorted_map_refines_ops :
    let order : Visit Nonce := ⟨id, .refl⟩
    let ops : List (MapOp Nonce) := [.put 7, .put 3, .put 4, .flattenByCount order 0, .cap 2,
      .readyWithGasPrice 3 4, .cachedTxsFlattenByCount order 1, .ready 3]
    ∃ m : TxSortedMap Nonce, exec (step id fun _ => 3) newTxSortedMap ops = some ([.done, .done, .done,
      .txs [some 3, some 4, some 7], .txs [some 7], .txs [], .txs [some 3],
      .txs [some 3, some 4]], m) ∧ m.items = [] := by
  intro order ops
  have hops : ∀ op ∈ ops, Nonneg op := by simp [ops, Nonneg]
  obtain ⟨results, m, hexec, hplain, -⟩ := tx_sorted_map_refines id (fun _ => 3) ops hops
  obtain ⟨rfl, hitems⟩ := Prod.mk.inj (Option.some.inj hplain)
  exact ⟨m, hexec, hitems.symm⟩

/-- All transactions are dropped, and there is one more to drop. -/
theorem negative_numbers_panic :
    let order : Visit Nonce := ⟨id, .refl⟩
    exec (step id fun _ => 0) newTxSortedMap [.put (1 : Nonce), .cap (-1)] = none ∧
    exec (step id fun _ => 0) newTxSortedMap [.put (1 : Nonce), .flattenByCount order (-1)] =
      none := by
  decide +kernel

end TxSortedMap

end Kaia.TxPool
