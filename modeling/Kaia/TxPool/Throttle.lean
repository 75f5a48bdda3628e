import Kaia.TxPool.Validate

/-! # The spam throttler

The lists of allowed and of throttled transactions are both built in the memory of the list that is
read. Each writes over the other, so only one of them may get any transaction.
-/

namespace Kaia.TxPool

open List

structure Throttler where
  throttled : Address → ℤ
  allowed : Address → Bool

/-- The memory of the input, which both results are slices of, and their lengths. -/
structure Classified where
  memory : List Transaction
  allow : ℕ
  throttle : ℕ

namespace Throttler

variable (t : Throttler) (txs : List Transaction)

def throttles (tx : Transaction) : Bool :=
  tx.recipient.any fun a => 0 < t.throttled a ∧ t.allowed a = false

/-- The loop body: the transaction that is in the memory now is appended to one of the slices. -/
def classify (s : Classified) (i : ℕ) : Classified :=
  match s.memory[i]? with
  | none => s
  | some tx =>
    if t.throttles tx then { s with memory := s.memory.set s.throttle tx, throttle := s.throttle + 1 }
    else { s with memory := s.memory.set s.allow tx, allow := s.allow + 1 }

def classifyFirst (n : ℕ) : Classified := (range n).foldl t.classify ⟨txs, 0, 0⟩

def classifyTxs : List Transaction × List Transaction :=
  let s := t.classifyFirst txs txs.length
  (s.memory.take s.allow, s.memory.take s.throttle)

variable {t txs} {n : ℕ}

theorem classifyFirst_succ :
    t.classifyFirst txs (n + 1) = t.classify (t.classifyFirst txs n) n := by
  rw [classifyFirst, range_succ, foldl_append]
  rfl

theorem classifyFirst_of_forall {b : Bool} (h : ∀ tx ∈ txs, t.throttles tx = b)
    (hn : n ≤ txs.length) :
    t.classifyFirst txs n = ⟨txs, if b then 0 else n, if b then n else 0⟩ := by
  induction n with
  | zero => cases b <;> rfl
  | succ n ih =>
    have hmem := h _ (getElem_mem hn)
    rw [classifyFirst_succ, ih (by omega), classify, getElem?_eq_getElem hn]
    cases b <;> simp [hmem]

theorem mem_take_of_take_ne_nil {α : Type} {a : α} {l : List α} {k : ℕ}
    (h : (a :: l).take k ≠ []) : a ∈ (a :: l).take k := by
  cases k with
  | zero => exact absurd rfl h
  | succ k => exact mem_cons_self

/-- The results are right only if all transactions are throttled or none is. -/
theorem classifyTxs_iff (t : Throttler) (txs : List Transaction) :
    t.classifyTxs txs = (txs.filter (!t.throttles ·), txs.filter t.throttles) ↔
      (∀ tx ∈ txs, t.throttles tx = true) ∨ ∀ tx ∈ txs, t.throttles tx = false := by
  constructor
  · intro h
    by_contra! hmixed
    obtain ⟨⟨tx, htx, hallow⟩, tx', htx', hthrottle⟩ := hmixed
    obtain ⟨hfirst, hsecond⟩ := Prod.mk.inj h
    have hne : txs.filter (!t.throttles ·) ≠ [] :=
      ne_nil_of_mem (mem_filter.mpr ⟨htx, by simpa using hallow⟩)
    have hne' : txs.filter t.throttles ≠ [] :=
      ne_nil_of_mem (mem_filter.mpr ⟨htx', by simpa using hthrottle⟩)
    rw [← hfirst] at hne
    rw [← hsecond] at hne'
    -- the first cell of the memory is the first of both lists
    generalize (t.classifyFirst txs txs.length).memory = memory at *
    cases memory with
    | nil => exact hne take_nil
    | cons shared memory =>
      have hmem := mem_take_of_take_ne_nil hne
      have hmem' := mem_take_of_take_ne_nil hne'
      rw [hfirst, mem_filter] at hmem
      rw [hsecond, mem_filter] at hmem'
      simp [hmem'.2] at hmem
  · rintro (h | h)
    · have hnone : txs.filter (!t.throttles ·) = [] := filter_eq_nil_iff.mpr (by simpa using h)
      rw [classifyTxs, classifyFirst_of_forall h le_rfl, hnone, filter_eq_self.mpr h]
      exact congrArg _ take_length
    · have hnone : txs.filter t.throttles = [] := filter_eq_nil_iff.mpr (by simpa using h)
      rw [classifyTxs, classifyFirst_of_forall h le_rfl, hnone,
        filter_eq_self.mpr (by simpa using h)]
      exact congrArg (·, _) take_length

def transferTo (a : Address) : Transaction :=
  ⟨.legacyTransaction, ((0 : ℕ), (25 : ℤ), (21000 : ℕ), (some a : Option Address), (0 : ℤ),
    ([] : Bytes), (0 : ℕ), (0 : ℕ), (0 : ℕ), ())⟩

/-- The throttled transaction is lost, and the other one is in both lists. -/
theorem throttled_transaction_lost :
    let t : Throttler := ⟨fun a => if a = 1 then 300 else 0, fun _ => false⟩
    [transferTo 1, transferTo 2].Nodup ∧
      t.classifyTxs [transferTo 1, transferTo 2] = ([transferTo 2], [transferTo 2]) ∧
      [transferTo 1, transferTo 2].filter t.throttles = [transferTo 1] := by
  have hne : transferTo 1 ≠ transferTo 2 := fun h =>
    absurd (congrArg Transaction.recipient h) (by decide)
  refine ⟨by simpa using hne, rfl, rfl⟩

end Throttler

end Kaia.TxPool
