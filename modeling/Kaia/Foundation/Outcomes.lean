import Mathlib

/-! # Outcomes of fallible computations

What a computation that may fail returns, and what it fails with. The rule for one
computation after another lets the properties of its parts be put together.
-/

namespace Kaia.Foundation

variable {ε α β : Type} {E : ε → Prop} {Q Q' : α → Prop} {R : β → Prop} {x : Except ε α}

def Outcome (E : ε → Prop) (Q : α → Prop) : Except ε α → Prop
  | .ok a => Q a
  | .error e => E e

@[simp] theorem outcome_ok {a : α} : Outcome E Q (.ok a) ↔ Q a := Iff.rfl

@[simp] theorem outcome_error {e : ε} : Outcome E Q (.error e) ↔ E e := Iff.rfl

section

variable (h : Outcome E Q x)

include h

theorem Outcome.bind {f : α → Except ε β} (hf : ∀ a, Q a → Outcome E R (f a)) :
    Outcome E R (x >>= f) := by
  cases x with
  | ok a => exact hf a h
  | error e => exact h

theorem Outcome.mono (hQ : ∀ a, Q a → Q' a) : Outcome E Q' x := by
  cases x with
  | ok a => exact hQ a h
  | error e => exact h

theorem Outcome.mono_error {E' : ε → Prop} (hE : ∀ e, E e → E' e) : Outcome E' Q x := by
  cases x with
  | ok a => exact h
  | error e => exact hE e h

theorem Outcome.mapError {δ : Type} {f : ε → δ} {E' : δ → Prop}
    (hE : ∀ e, E e → E' (f e)) : Outcome E' Q (x.mapError f) := by
  cases x with
  | ok a => exact h
  | error e => exact hE e h

theorem Outcome.of_ok {a : α} (hx : x = .ok a) : Q a := by
  rwa [hx, outcome_ok] at h

theorem Outcome.of_error {e : ε} (hx : x = .error e) : E e := by
  rwa [hx, outcome_error] at h

end

theorem Outcome.exists_ok (h : Outcome (fun _ => False) Q x) : ∃ a, x = .ok a ∧ Q a := by
  cases x with
  | ok a => exact ⟨a, rfl, h⟩
  | error e => exact h.elim

theorem Outcome.with_eq (h : Outcome E Q x) : Outcome E (fun a => Q a ∧ x = .ok a) x := by
  cases x with
  | ok a => exact ⟨h, rfl⟩
  | error e => exact h

end Kaia.Foundation
