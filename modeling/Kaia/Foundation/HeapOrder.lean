import Mathlib
import Kaia.Foundation.Heap

/-! # The order of a binary heap

No element of a heap has a larger key than its parent, so the first one has the largest. Moving an
element up repairs a heap that is broken above one position, moving it down one broken below.
-/

namespace Kaia.Foundation.Heap

open List

variable {α K : Type*} {less : α → α → Bool} {key : α → K} {l l' : List α}
  {i j k n : ℕ} {a b : α}

def rank (key : α → K) (l : List α) (i : ℕ) : WithBot K := (l[i]?).elim ⊥ fun a => (key a : WithBot K)

theorem rank_of_getElem? (h : l[i]? = some a) : rank key l i = key a := by
  rw [rank, h]
  rfl

theorem rank_append_of_lt (h : i < l.length) : rank key (l ++ l') i = rank key l i := by
  rw [rank, rank, getElem?_append_left h]

theorem rank_take_of_lt (h : i < n) : rank key (l.take n) i = rank key l i := by
  rw [rank, rank, getElem?_take_of_lt h]

@[simp] theorem length_swapAt : (swapAt l i j).length = l.length := (swapAt_perm l i j).length_eq

section

variable (hi : i < l.length) (hj : j < l.length)

include hi hj

theorem getElem?_swapAt (k : ℕ) :
    (swapAt l i j)[k]? = if k = j then l[i]? else if k = i then l[j]? else l[k]? := by
  obtain ⟨a, ha⟩ : ∃ a, l[i]? = some a := ⟨_, getElem?_eq_getElem hi⟩
  obtain ⟨b, hb⟩ : ∃ b, l[j]? = some b := ⟨_, getElem?_eq_getElem hj⟩
  unfold swapAt
  rw [ha, hb]
  dsimp only
  rw [getElem?_set, getElem?_set, length_set]
  by_cases hkj : k = j
  · subst hkj
    rw [if_pos rfl, if_pos rfl, if_pos hj]
  · rw [if_neg (Ne.symm hkj), if_neg hkj]
    by_cases hki : k = i
    · subst hki
      rw [if_pos rfl, if_pos rfl, if_pos hi]
    · rw [if_neg (Ne.symm hki), if_neg hki]

theorem rank_swapAt_left : rank key (swapAt l i j) i = rank key l j := by
  rw [rank, getElem?_swapAt hi hj]
  split
  · next h => rw [h, rank]
  · rw [if_pos rfl, rank]

theorem rank_swapAt_right : rank key (swapAt l i j) j = rank key l i := by
  rw [rank, getElem?_swapAt hi hj, if_pos rfl, rank]

theorem rank_swapAt_of_ne (hki : k ≠ i) (hkj : k ≠ j) :
    rank key (swapAt l i j) k = rank key l k := by
  rw [rank, getElem?_swapAt hi hj, if_neg hkj, if_neg hki, rank]

end

variable [LinearOrder K]

/-- The comparison of elements of a list is that of their keys: larger ones go first. -/
def Agrees (less : α → α → Bool) (key : α → K) (l : List α) : Prop :=
  ∀ a ∈ l, ∀ b ∈ l, (less a b = true ↔ key b < key a)

/-- The first `n` positions are in order. -/
def Ordered (key : α → K) (l : List α) (n : ℕ) : Prop :=
  ∀ k, 0 < k → k < n → rank key l k ≤ rank key l ((k - 1) / 2)

theorem Agrees.perm (h : Agrees less key l) (hperm : l'.Perm l) : Agrees less key l' :=
  fun a ha b hb => h a (hperm.mem_iff.mp ha) b (hperm.mem_iff.mp hb)

theorem Agrees.lessAt_iff (h : Agrees less key l) (hi : i < l.length) (hj : j < l.length) :
    lessAt less l i j = true ↔ rank key l j < rank key l i := by
  obtain ⟨a, ha⟩ : ∃ a, l[i]? = some a := ⟨_, getElem?_eq_getElem hi⟩
  obtain ⟨b, hb⟩ : ∃ b, l[j]? = some b := ⟨_, getElem?_eq_getElem hj⟩
  rw [rank_of_getElem? ha, rank_of_getElem? hb, WithBot.coe_lt_coe, lessAt, ha, hb]
  exact h a (mem_of_getElem? ha) b (mem_of_getElem? hb)

theorem Ordered.rank_le (h : Ordered key l n) (k : ℕ) (hk : k < n) :
    rank key l k ≤ rank key l 0 := by
  induction k using Nat.strong_induction_on with
  | _ k ih =>
    rcases Nat.eq_zero_or_pos k with rfl | hpos
    · exact le_rfl
    · exact (h k hpos hk).trans (ih _ (by omega) (by omega))

/-- In order but for one position and its parent; its children are below its parent. -/
structure BrokenAbove (key : α → K) (l : List α) (j n : ℕ) : Prop where
  other : ∀ k, 0 < k → k < n → k ≠ j → rank key l k ≤ rank key l ((k - 1) / 2)
  child : ∀ k, 0 < k → k < n → (k - 1) / 2 = j → 0 < j → rank key l k ≤ rank key l ((j - 1) / 2)

theorem BrokenAbove.swapAt (h : BrokenAbove key l j n) (hj : j < l.length) (hjn : j < n)
    (hpos : 0 < j) (hlt : rank key l ((j - 1) / 2) < rank key l j) :
    BrokenAbove key (swapAt l ((j - 1) / 2) j) ((j - 1) / 2) n := by
  generalize hi : (j - 1) / 2 = i at hlt
  have hij : i < j := by omega
  have hil : i < l.length := hij.trans hj
  constructor
  · intro k hk hkn hki
    by_cases hkj : k = j
    · subst hkj
      rw [hi, rank_swapAt_right hil hj, rank_swapAt_left hil hj]
      exact hlt.le
    · rw [rank_swapAt_of_ne hil hj hki hkj]
      have hother := h.other k hk hkn hkj
      by_cases hpi : (k - 1) / 2 = i
      · -- the other child of the parent
        rw [hpi] at hother ⊢
        rw [rank_swapAt_left hil hj]
        exact hother.trans hlt.le
      · by_cases hpj : (k - 1) / 2 = j
        · rw [hpj, rank_swapAt_right hil hj, ← hi]
          exact h.child k hk hkn hpj hpos
        · rwa [rank_swapAt_of_ne hil hj hpi hpj]
  · intro k hk hkn hki hipos
    have hparent : rank key l i ≤ rank key l ((i - 1) / 2) :=
      h.other i hipos (hij.trans hjn) hij.ne
    rw [rank_swapAt_of_ne hil hj (k := (i - 1) / 2) (by omega) (by omega)]
    by_cases hkj : k = j
    · subst hkj
      rwa [rank_swapAt_right hil hj]
    · rw [rank_swapAt_of_ne hil hj (by omega) hkj]
      have hother := h.other k hk hkn hkj
      rw [hki] at hother
      exact hother.trans hparent

theorem up_ordered (fuel : ℕ) (hagrees : Agrees less key l) (h : BrokenAbove key l j n)
    (hj : j < l.length) (hjn : j < n) (hfuel : j < fuel) : Ordered key (up less fuel l j) n := by
  induction fuel generalizing l j with
  | zero => exact absurd hfuel (Nat.not_lt_zero j)
  | succ fuel ih =>
    unfold up
    dsimp only
    have hparent : (j - 1) / 2 < l.length := by omega
    split
    · next hstop =>
      intro k hk hkn
      by_cases hkj : k = j
      · -- the position is the root, or not above its parent
        subst hkj
        rcases hstop with hroot | hless
        · omega
        · exact not_lt.mp fun hlt => hless ((hagrees.lessAt_iff hj hparent).mpr hlt)
      · exact h.other k hk hkn hkj
    · next hgo =>
      obtain ⟨hne, hless⟩ := not_or.mp hgo
      have hpos : 0 < j := by omega
      have hlt := (hagrees.lessAt_iff hj hparent).mp (not_not.mp hless)
      refine ih (hagrees.perm (swapAt_perm _ _ _)) (h.swapAt hj hjn hpos hlt) ?_ ?_ ?_
      · rwa [length_swapAt]
      · omega
      · omega

theorem push_ordered (hagrees : Agrees less key (l ++ [a])) (h : Ordered key l l.length) :
    Ordered key (push less l a) (l.length + 1) := by
  unfold push
  refine up_ordered _ hagrees ⟨?_, ?_⟩ ?_ (Nat.lt_succ_self _) (Nat.lt_succ_self _)
  · intro k hk hkn hne
    rw [rank_append_of_lt (by omega), rank_append_of_lt (by omega)]
    exact h k hk (by omega)
  · intro k hk hkn hparent hpos
    omega
  · rw [length_append, length_singleton]
    exact Nat.lt_succ_self _

theorem foldl_push_ordered (hagrees : ∀ l, Agrees less key l) (l new : List α)
    (h : Ordered key l l.length) :
    Ordered key (new.foldl (push less) l) (new.foldl (push less) l).length := by
  induction new generalizing l with
  | nil => exact h
  | cons a new ih =>
    apply ih
    have hordered := push_ordered (hagrees (l ++ [a])) h
    rwa [(push_perm l a).length_eq]

/-- The first `n` positions are in order below position `m`. -/
def OrderedFrom (key : α → K) (l : List α) (m n : ℕ) : Prop :=
  ∀ k, 0 < k → k < n → m ≤ (k - 1) / 2 → rank key l k ≤ rank key l ((k - 1) / 2)

/-- In order below position `m` but for one position and its children; these are below its
parent. -/
structure BrokenBelow (key : α → K) (l : List α) (m i n : ℕ) : Prop where
  other : ∀ k, 0 < k → k < n → m ≤ (k - 1) / 2 → (k - 1) / 2 ≠ i →
    rank key l k ≤ rank key l ((k - 1) / 2)
  child : ∀ k, 0 < k → k < n → (k - 1) / 2 = i → 0 < i → m ≤ (i - 1) / 2 →
    rank key l k ≤ rank key l ((i - 1) / 2)

theorem child_lt (h : ¬ n ≤ 2 * i + 1) : child less l i n < n := by
  unfold child
  split
  · next hc => exact hc.1
  · omega

theorem parent_child (less : α → α → Bool) (l : List α) (i n : ℕ) :
    (child less l i n - 1) / 2 = i ∧ i < child less l i n := by
  unfold child
  split <;> omega

theorem rank_le_child (hagrees : Agrees less key l) (hn : n ≤ l.length) (hk : 0 < k) (hkn : k < n)
    (hparent : (k - 1) / 2 = i) : rank key l k ≤ rank key l (child less l i n) := by
  have hcases : k = 2 * i + 1 ∨ k = 2 * i + 2 := by omega
  unfold child
  split
  · next hc =>
    rcases hcases with rfl | rfl
    · exact ((hagrees.lessAt_iff (hc.1.trans_le hn) (by omega)).mp hc.2).le
    · exact le_rfl
  · next hc =>
    rcases hcases with rfl | rfl
    · exact le_rfl
    · refine not_lt.mp fun hlt => hc ⟨hkn, ?_⟩
      exact (hagrees.lessAt_iff (hkn.trans_le hn) (by omega)).mpr hlt

variable {m : ℕ} {rest : List α}

theorem BrokenBelow.swapAt (h : BrokenBelow key l m i n) (hn : n ≤ l.length) (hjn : j < n)
    (hparent : (j - 1) / 2 = i) (hij : i < j) (hlt : rank key l i < rank key l j)
    (hmax : ∀ k, 0 < k → k < n → (k - 1) / 2 = i → rank key l k ≤ rank key l j) :
    BrokenBelow key (swapAt l i j) m j n := by
  have hj : j < l.length := hjn.trans_le hn
  have hi : i < l.length := hij.trans hj
  constructor
  · intro k hk hkn hm hpj
    by_cases hkj : k = j
    · subst hkj
      rw [hparent, rank_swapAt_right hi hj, rank_swapAt_left hi hj]
      exact hlt.le
    · by_cases hki : k = i
      · subst hki
        rw [rank_swapAt_left hi hj, rank_swapAt_of_ne hi hj (by omega) hpj]
        exact h.child j (by omega) hjn hparent hk hm
      · rw [rank_swapAt_of_ne hi hj hki hkj]
        by_cases hpi : (k - 1) / 2 = i
        · rw [hpi, rank_swapAt_left hi hj]
          exact hmax k hk hkn hpi
        · rw [rank_swapAt_of_ne hi hj hpi hpj]
          exact h.other k hk hkn hm hpi
  · intro k hk hkn hpj hjpos hm
    rw [hparent, rank_swapAt_left hi hj, rank_swapAt_of_ne hi hj (by omega) (by omega), ← hpj]
    exact h.other k hk hkn (by omega) (by omega)

theorem down_ordered (fuel : ℕ) (hagrees : Agrees less key l) (h : BrokenBelow key l m i n)
    (hn : n ≤ l.length) (hfuel : n ≤ i + fuel) : OrderedFrom key (down less fuel l i n) m n := by
  induction fuel generalizing l i with
  | zero =>
    intro k hk hkn hm
    exact h.other k hk hkn hm (by omega)
  | succ fuel ih =>
    unfold down
    dsimp only
    split
    · next hleaf => exact fun k hk hkn hm => h.other k hk hkn hm (by omega)
    · next hleaf =>
      obtain ⟨hparent, hij⟩ := parent_child less l i n
      have hjn : child less l i n < n := child_lt hleaf
      have hmax : ∀ k, 0 < k → k < n → (k - 1) / 2 = i →
          rank key l k ≤ rank key l (child less l i n) :=
        fun k hk hkn hp => rank_le_child hagrees hn hk hkn hp
      have hless := hagrees.lessAt_iff (hjn.trans_le hn) (i := child less l i n) (j := i) (by omega)
      split
      · next hstop =>
        intro k hk hkn hm
        by_cases hp : (k - 1) / 2 = i
        · rw [hp]
          exact (hmax k hk hkn hp).trans (not_lt.mp fun hlt => hstop (hless.mpr hlt))
        · exact h.other k hk hkn hm hp
      · next hgo =>
        have hlt := hless.mp (not_not.mp hgo)
        refine ih (hagrees.perm (swapAt_perm _ _ _)) (h.swapAt hn hjn hparent hij hlt hmax) ?_ ?_
        · rwa [length_swapAt]
        · omega

theorem getElem?_down (fuel : ℕ) (hn : n ≤ l.length) (hk : n ≤ k) :
    (down less fuel l i n)[k]? = l[k]? := by
  induction fuel generalizing l i with
  | zero => rfl
  | succ fuel ih =>
    unfold down
    dsimp only
    split
    · rfl
    · next hleaf =>
      split
      · rfl
      · have hjn : child less l i n < n := child_lt hleaf
        obtain ⟨-, hij⟩ := parent_child less l i n
        rw [ih (by rwa [length_swapAt]), getElem?_swapAt (by omega) (by omega), if_neg (by omega),
          if_neg (by omega)]

theorem getElem?_up (fuel : ℕ) (hj : j < l.length) (hk : j < k) :
    (up less fuel l j)[k]? = l[k]? := by
  induction fuel generalizing l j with
  | zero => rfl
  | succ fuel ih =>
    unfold up
    dsimp only
    split
    · rfl
    · rw [ih (by rw [length_swapAt]; omega) (by omega), getElem?_swapAt (by omega) hj,
        if_neg (by omega), if_neg (by omega)]

theorem up_zero (fuel : ℕ) : up less fuel l 0 = l := by
  cases fuel with
  | zero => rfl
  | succ fuel =>
    unfold up
    exact if_pos (.inl rfl)

theorem sinks_iff : sinks less l i n = true ↔
    2 * i + 1 < n ∧ lessAt less l (child less l i n) i = true := by
  rw [sinks, Bool.and_eq_true, decide_eq_true_iff]

theorem down_of_not_sinks (fuel : ℕ) (h : ¬ sinks less l i n) : down less fuel l i n = l := by
  cases fuel with
  | zero => rfl
  | succ fuel =>
    unfold down
    dsimp only
    split
    · rfl
    · exact if_pos fun hless => h (sinks_iff.mpr ⟨by omega, hless⟩)

theorem perm_of_getLast (hperm : l'.Perm l) (hlast : l'[l.length - 1]? = some a) :
    (a :: l'.take (l.length - 1)).Perm l := by
  obtain ⟨hlt, hget⟩ := List.getElem?_eq_some_iff.mp hlast
  have hsplit : l'.take (l.length - 1) ++ [a] = l' := by
    have hlen := hperm.length_eq
    rw [← hget, ← take_succ_eq_append_getElem hlt, take_of_length_le (by omega)]
  refine .trans ?_ hperm
  conv_rhs => rw [← hsplit]
  exact (perm_append_singleton a _).symm

theorem remove_perm (h : l[i]? = some a) : (a :: remove less l i).Perm l := by
  have hi := (List.getElem?_eq_some_iff.mp h).1
  unfold remove
  dsimp only
  split
  · next hlast => exact perm_of_getLast (.refl l) (by rwa [hlast])
  · next hne =>
    have hlast : l.length - 1 < l.length := by omega
    have hget : (swapAt l i (l.length - 1))[l.length - 1]? = some a := by
      rw [getElem?_swapAt hi hlast, if_pos rfl, h]
    have hperm := swapAt_perm l i (l.length - 1)
    generalize swapAt l i (l.length - 1) = l₁ at hget hperm
    have hlen := hperm.length_eq
    split
    · refine perm_of_getLast ((down_perm _ _ _ _).trans hperm) ?_
      rwa [getElem?_down _ (by omega) le_rfl]
    · next hsinks =>
      rw [down_of_not_sinks _ hsinks]
      refine perm_of_getLast ((up_perm _ _ _).trans hperm) ?_
      rwa [getElem?_up _ (by omega) (by omega)]

theorem remove_ordered (hagrees : Agrees less key l) (h : Ordered key l l.length)
    (hi : i < l.length) : Ordered key (remove less l i) (l.length - 1) := by
  have htake : ∀ {l' : List α}, Ordered key l' (l.length - 1) →
      Ordered key (l'.take (l.length - 1)) (l.length - 1) := by
    intro l' h k hk hkn
    rw [rank_take_of_lt hkn, rank_take_of_lt (by omega)]
    exact h k hk hkn
  unfold remove
  dsimp only
  split
  · exact htake fun k hk hkn => h k hk (by omega)
  · next hne =>
    have hother : ∀ k, k < l.length - 1 → k ≠ i →
        rank key (swapAt l i (l.length - 1)) k = rank key l k := fun k hk hki =>
      rank_swapAt_of_ne hi (by omega) hki (by omega)
    have hperm := swapAt_perm l i (l.length - 1)
    have hagrees := hagrees.perm hperm
    generalize swapAt l i (l.length - 1) = l₁ at hother hperm hagrees
    have hlen := hperm.length_eq
    -- everything but the position is in order, and its children are below its parent
    have hchild : ∀ k, 0 < k → k < l.length - 1 → (k - 1) / 2 = i → 0 < i →
        rank key l₁ k ≤ rank key l₁ ((i - 1) / 2) := by
      intro k hk hkn hp hpos
      rw [hother k hkn (by omega), hother _ (by omega) (by omega)]
      exact (h k hk (by omega)).trans (hp ▸ h i hpos hi)
    have hrest : ∀ k, 0 < k → k < l.length - 1 → k ≠ i → (k - 1) / 2 ≠ i →
        rank key l₁ k ≤ rank key l₁ ((k - 1) / 2) := by
      intro k hk hkn hki hp
      rw [hother k hkn hki, hother _ (by omega) hp]
      exact h k hk (by omega)
    have hless : 2 * i + 1 < l.length - 1 → (lessAt less l₁ (child less l₁ i (l.length - 1)) i =
        true ↔ rank key l₁ i < rank key l₁ (child less l₁ i (l.length - 1))) := fun hleaf =>
      hagrees.lessAt_iff ((child_lt (not_le.mpr hleaf)).trans_le (by omega)) (by omega)
    split
    · next hsinks =>
      obtain ⟨hleaf, hdown⟩ := sinks_iff.mp hsinks
      obtain ⟨hparent, hij⟩ := parent_child less l₁ i (l.length - 1)
      refine htake fun k hk hkn => down_ordered (m := 0) _ hagrees ⟨fun k hk hkn _ hp => ?_,
        fun k hk hkn hp hpos _ => hchild k hk hkn hp hpos⟩ (by omega) (by omega) k hk hkn
          (Nat.zero_le _)
      by_cases hki : k = i
      · subst hki
        exact ((hless hleaf).mp hdown).le.trans
          (hchild _ (by omega) (child_lt (not_le.mpr hleaf)) hparent hk)
      · exact hrest k hk hkn hki hp
    · next hsinks =>
      rw [down_of_not_sinks _ hsinks]
      refine htake (up_ordered _ hagrees ⟨fun k hk hkn hki => ?_, hchild⟩ (by omega) (by omega)
        (by omega))
      by_cases hp : (k - 1) / 2 = i
      · rw [hp]
        refine (rank_le_child hagrees (by omega) hk hkn hp).trans (not_lt.mp fun hlt => hsinks ?_)
        exact sinks_iff.mpr ⟨by omega, (hless (by omega)).mpr hlt⟩
      · exact hrest k hk hkn hki hp

theorem pop_eq_some :
    pop less l = some (a, rest) ↔ l.head? = some a ∧ remove less l 0 = rest := by
  rcases l with _ | ⟨b, l⟩
  · simp [pop, swapAt, down]
  · have hget : (down less ((b :: l).length - 1 + 1) (swapAt (b :: l) 0 ((b :: l).length - 1)) 0
        ((b :: l).length - 1))[(b :: l).length - 1]? = some b := by
      rw [getElem?_down _ (by rw [length_swapAt]; omega) le_rfl, getElem?_swapAt (by simp) (by simp),
        if_pos rfl]
      rfl
    unfold pop remove
    dsimp only
    rw [hget, up_zero, ite_self]
    have hzero : ∀ l' : List α, (if (b :: l).length - 1 = 0 then (b :: l).take ((b :: l).length - 1)
        else l'.take ((b :: l).length - 1)) = l'.take ((b :: l).length - 1) := by
      intro l'
      split
      · next h => rw [h, take_zero, take_zero]
      · rfl
    rw [hzero]
    simp

theorem pop_eq_none_iff : pop less l = none ↔ l = [] := by
  rw [Option.eq_none_iff_forall_ne_some, ← head?_eq_none_iff, Option.eq_none_iff_forall_ne_some]
  simp [pop_eq_some]

theorem pop_head (hpop : pop less l = some (a, rest)) : l.head? = some a := (pop_eq_some.mp hpop).1

theorem pop_perm (hpop : pop less l = some (a, rest)) : (a :: rest).Perm l := by
  obtain ⟨hhead, rfl⟩ := pop_eq_some.mp hpop
  exact remove_perm (by rwa [← head?_eq_getElem?])

theorem pop_ordered (hagrees : Agrees less key l) (h : Ordered key l l.length)
    (hpop : pop less l = some (a, rest)) :
    (∀ b ∈ rest, key b ≤ key a) ∧ Ordered key rest rest.length := by
  have hperm := pop_perm hpop
  have hlen : l.length = rest.length + 1 := by rw [← hperm.length_eq, length_cons]
  obtain ⟨hhead, rfl⟩ := pop_eq_some.mp hpop
  rw [head?_eq_getElem?] at hhead
  constructor
  · -- the first element has been the largest
    intro b hb
    obtain ⟨k, hk⟩ := mem_iff_getElem?.mp (hperm.mem_iff.mp (mem_cons_of_mem a hb))
    have hle := h.rank_le k (List.getElem?_eq_some_iff.mp hk).1
    rw [rank_of_getElem? hk, rank_of_getElem? hhead] at hle
    exact WithBot.coe_le_coe.mp hle
  · have hordered := remove_ordered hagrees h (i := 0) (by omega)
    rwa [hlen] at hordered

theorem initFrom_ordered (hagrees : Agrees less key l) (i : ℕ)
    (h : OrderedFrom key l i l.length) :
    Ordered key (initFrom less i l) (initFrom less i l).length := by
  induction i generalizing l with
  | zero => exact fun k hk hkn => h k hk hkn (Nat.zero_le _)
  | succ i ih =>
    have hperm : (down less l.length l i l.length).Perm l := down_perm _ _ _ _
    have hdown : OrderedFrom key (down less l.length l i l.length) i l.length := by
      apply down_ordered _ hagrees ?_ le_rfl (by omega)
      constructor
      · exact fun k hk hkn hm hne => h k hk hkn (by omega)
      · exact fun k hk hkn hp hpos hm => absurd hm (by omega)
    apply ih (hagrees.perm hperm)
    rwa [hperm.length_eq]

theorem init_ordered (hagrees : Agrees less key l) :
    Ordered key (init less l) (init less l).length := by
  apply initFrom_ordered hagrees
  intro k hk hkn hm
  omega

end Kaia.Foundation.Heap
