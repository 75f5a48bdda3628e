import Kaia.Foundation.Shuffle

/-! # Binary heaps in a list

The heap operations of a priority queue, on a list that is read as a complete
binary tree. They only exchange positions, so that whatever the comparison does, a
push adds one element and a pop takes one away.
-/

namespace Kaia.Foundation.Heap

variable {α : Type*} (less : α → α → Bool)

variable (l : List α)

def lessAt (i j : ℕ) : Bool :=
  match l[i]?, l[j]? with
  | some a, some b => less a b
  | _, _ => false

def up : ℕ → List α → ℕ → List α
  | 0, l, _ => l
  | fuel + 1, l, j =>
    let i := (j - 1) / 2
    if i = j ∨ ¬ lessAt less l j i then l else up fuel (swapAt l i j) i

/-- The child of a position that goes first among the first `n` elements. -/
def child (i n : ℕ) : ℕ :=
  if 2 * i + 2 < n ∧ lessAt less l (2 * i + 2) (2 * i + 1) then 2 * i + 2 else 2 * i + 1

/-- Move the element at a position down within the first `n` ones while a child
precedes it. -/
def down : ℕ → List α → ℕ → ℕ → List α
  | 0, l, _, _ => l
  | fuel + 1, l, i, n =>
    let j := child less l i n
    if n ≤ 2 * i + 1 then l
    else if ¬ lessAt less l j i then l
    else down fuel (swapAt l i j) j n

def push (a : α) : List α := up less (l.length + 1) (l ++ [a]) l.length

def pop : Option (α × List α) :=
  let n := l.length - 1
  let l := down less (n + 1) (swapAt l 0 n) 0 n
  match l[n]? with
  | some a => some (a, l.take n)
  | none => none

/-- Whether `down` moves the element at a position. -/
def sinks (i n : ℕ) : Bool := 2 * i + 1 < n && lessAt less l (child less l i n) i

/-- Take the element at a position out. -/
def remove (i : ℕ) : List α :=
  let n := l.length - 1
  if n = i then l.take n
  else
    let l₁ := swapAt l i n
    let l₂ := down less (n + 1) l₁ i n
    (if sinks less l₁ i n then l₂ else up less (n + 1) l₂ i).take n

/-- Let the elements before position `i` sink, the last one first. -/
def initFrom : ℕ → List α → List α
  | 0, l => l
  | i + 1, l => initFrom i (down less l.length l i l.length)

def init : List α := initFrom less (l.length / 2) l

variable {less}

theorem up_perm (fuel : ℕ) (l : List α) (j : ℕ) : (up less fuel l j).Perm l := by
  induction fuel generalizing l j with
  | zero => exact List.Perm.refl _
  | succ fuel ih =>
    unfold up
    dsimp only
    split
    · exact List.Perm.refl _
    · exact (ih _ _).trans (swapAt_perm _ _ _)

theorem down_perm (fuel : ℕ) (l : List α) (i n : ℕ) : (down less fuel l i n).Perm l := by
  induction fuel generalizing l i with
  | zero => exact List.Perm.refl _
  | succ fuel ih =>
    unfold down
    dsimp only
    split
    · exact List.Perm.refl _
    · split
      · exact List.Perm.refl _
      · exact (ih _ _).trans (swapAt_perm _ _ _)

theorem initFrom_perm (i : ℕ) (l : List α) : (initFrom less i l).Perm l := by
  induction i generalizing l with
  | zero => exact List.Perm.refl _
  | succ i ih => exact (ih _).trans (down_perm _ _ _ _)

theorem push_perm (a : α) : (push less l a).Perm (a :: l) :=
  (up_perm _ _ _).trans (List.perm_append_singleton a l)

theorem foldl_push_perm (l new : List α) : (new.foldl (push less) l).Perm (new ++ l) := by
  induction new generalizing l with
  | nil => exact .refl _
  | cons a new ih =>
    apply (ih _).trans
    exact ((push_perm l a).append_left new).trans List.perm_middle

theorem mem_push {l : List α} {a b : α} : b ∈ push less l a ↔ b = a ∨ b ∈ l := by
  rw [(push_perm l a).mem_iff, List.mem_cons]

end Kaia.Foundation.Heap
