import Mathlib

/-! # Words side by side

Two words of which neither is in front of the other part at a letter. The one with the
smaller letter there is left of the other, and so is everything it is in front of.
-/

namespace Kaia.Foundation

variable {α : Type*} [LinearOrder α] {a b : α} {p s x y : List α}

def LeftOf : List α → List α → Prop
  | a :: x, b :: y => a < b ∨ (a = b ∧ LeftOf x y)
  | _, _ => False

@[simp] theorem leftOf_cons : LeftOf (a :: x) (b :: y) ↔ a < b ∨ (a = b ∧ LeftOf x y) := Iff.rfl

@[simp] theorem not_leftOf_nil_left : ¬ LeftOf [] y := nofun

@[simp] theorem not_leftOf_nil_right : ¬ LeftOf x [] := by
  cases x <;> exact nofun

theorem leftOf_self_cons : LeftOf (a :: x) (a :: y) ↔ LeftOf x y := by simp

@[simp] theorem leftOf_append : LeftOf (p ++ x) (p ++ y) ↔ LeftOf x y := by
  induction p with
  | nil => rfl
  | cons a p ih => rw [List.cons_append, List.cons_append, leftOf_self_cons, ih]

theorem LeftOf.extend (h : LeftOf x y) (s s' : List α) : LeftOf (x ++ s) (y ++ s') := by
  induction x generalizing y with
  | nil => cases h
  | cons a x ih =>
    cases y with
    | nil => cases h
    | cons b y =>
      obtain hlt | ⟨heq, h⟩ := h
      · exact .inl hlt
      · exact .inr ⟨heq, ih h⟩

theorem LeftOf.of_front_left (h : LeftOf p y) (hp : p <+: x) : LeftOf x y := by
  obtain ⟨s, rfl⟩ := hp
  simpa using h.extend s []

theorem LeftOf.of_front_right (h : LeftOf x p) (hp : p <+: y) : LeftOf x y := by
  obtain ⟨s, rfl⟩ := hp
  simpa using h.extend [] s

theorem LeftOf.asymm (h : LeftOf x y) : ¬ LeftOf y x := by
  induction x generalizing y with
  | nil => cases h
  | cons a x ih =>
    cases y with
    | nil => cases h
    | cons b y =>
      rintro (hba | ⟨rfl, hyx⟩)
      · obtain hab | ⟨rfl, -⟩ := h
        · exact lt_asymm hab hba
        · exact lt_irrefl a hba
      · exact ih (leftOf_self_cons.mp h) hyx

theorem not_leftOf_self (x : List α) : ¬ LeftOf x x := fun h => h.asymm h

theorem leftOf_cases (x y : List α) : x <+: y ∨ y <+: x ∨ LeftOf x y ∨ LeftOf y x := by
  induction x generalizing y with
  | nil => exact .inl List.nil_prefix
  | cons a x ih =>
    cases y with
    | nil => exact .inr (.inl List.nil_prefix)
    | cons b y =>
      obtain hlt | rfl | hgt := lt_trichotomy a b
      · exact .inr (.inr (.inl (.inl hlt)))
      · simpa [List.cons_prefix_cons] using ih y
      · exact .inr (.inr (.inr (.inl hgt)))

theorem lt_iff_leftOf : x < y ↔ LeftOf x y ∨ (x <+: y ∧ x ≠ y) := by
  induction x generalizing y with
  | nil => cases y <;> simp
  | cons a x ih =>
    cases y with
    | nil => simp
    | cons b y =>
      rw [List.cons_lt_cons_iff, ih, leftOf_cons, List.cons_prefix_cons]
      constructor
      · rintro (hlt | ⟨rfl, h | ⟨hp, hne⟩⟩)
        · exact .inl (.inl hlt)
        · exact .inl (.inr ⟨rfl, h⟩)
        · exact .inr ⟨⟨rfl, hp⟩, by simpa using hne⟩
      · rintro ((hlt | ⟨rfl, h⟩) | ⟨⟨rfl, hp⟩, hne⟩)
        · exact .inl hlt
        · exact .inr ⟨rfl, .inl h⟩
        · exact .inr ⟨rfl, .inr ⟨hp, by simpa using hne⟩⟩

theorem lt_iff_leftOf_of_length (h : x.length = y.length) : x < y ↔ LeftOf x y := by
  rw [lt_iff_leftOf]
  constructor
  · rintro (h' | ⟨hp, hne⟩)
    · exact h'
    · exact absurd (hp.eq_of_length h) hne
  · exact .inl

theorem LeftOf.lt (h : LeftOf x y) : x < y := lt_iff_leftOf.mpr (.inl h)

theorem le_append (x s : List α) : x ≤ x ++ s := by
  by_contra h
  obtain h | ⟨hp, hne⟩ := lt_iff_leftOf.mp (not_le.mp h)
  · exact not_leftOf_self _ (h.of_front_right (List.prefix_append x s))
  · exact hne (hp.eq_of_length_le (by simp))

theorem LeftOf.take_left (h : LeftOf x y) : LeftOf (x.take y.length) y := by
  induction x generalizing y with
  | nil => cases h
  | cons a x ih =>
    cases y with
    | nil => cases h
    | cons b y => exact h.imp_right fun ⟨heq, h⟩ => ⟨heq, ih h⟩

theorem LeftOf.take_right (h : LeftOf y x) : LeftOf y (x.take y.length) := by
  induction x generalizing y with
  | nil => exact absurd h not_leftOf_nil_right
  | cons a x ih =>
    cases y with
    | nil => cases h
    | cons b y => exact h.imp_right fun ⟨heq, h⟩ => ⟨heq, ih h⟩

end Kaia.Foundation
